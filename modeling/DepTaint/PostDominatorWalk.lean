import DepTaint.ControlDependencies

/-!
# PostDominatorWalk

The two loops of `computeDependencies` that climb the post-dominator tree, step by step.

Neither tests the next node for null before it takes its block. `idomAt n k` is the pointer after
`k` rounds, so a null node is taken exactly when a round starts from `none`.

* `climb_steps`, `rootWalk_steps`: the rounds of a walk, and where it stops.
* `computeDependencies_walks`: over every control flow graph no walk takes a null node.
-/

namespace DepTaint

namespace DomTreeNode

/-- `getIDom()`, null at the root. -/
def getIDom : DomTreeNode → Option DomTreeNode
  | .root _ => none
  | .node _ idom => some idom

/-- The node pointer after `k` times `node = node->getIDom()`. -/
def idomAt (n : DomTreeNode) : Nat → Option DomTreeNode
  | 0 => some n
  | k + 1 => (n.idomAt k).bind getIDom

@[simp] theorem idomAt_zero (n : DomTreeNode) : n.idomAt 0 = some n := rfl

@[simp] theorem idomAt_node_succ (b : BlockId) (d : DomTreeNode) (k : Nat) :
    (DomTreeNode.node b d).idomAt (k + 1) = d.idomAt k := by
  induction k with
  | zero => rfl
  | succ k ih => rw [idomAt, ih, idomAt]

@[simp] theorem idomAt_root_succ (b : Option BlockId) (k : Nat) :
    (DomTreeNode.root b).idomAt (k + 1) = none := by
  induction k with
  | zero => rfl
  | succ k ih => rw [idomAt, ih, Option.bind_none]

end DomTreeNode

namespace CDG

open DomTreeNode

/-- A walk from `n` that visits `bs`: every round finds a node, with the next block of `bs`. -/
def Visits (n : DomTreeNode) (bs : List BlockId) : Prop :=
  ∀ j (hj : j < bs.length), ∃ d, n.idomAt j = some d ∧ d.getBlock = some bs[j]

theorem visits_nil (n : DomTreeNode) : Visits n [] := fun _ hj => absurd hj (Nat.not_lt_zero _)

theorem Visits.cons {b : BlockId} {d : DomTreeNode} {bs : List BlockId} (h : Visits d bs) :
    Visits (.node b d) (b :: bs) := by
  intro j hj
  cases j with
  | zero => exact ⟨.node b d, rfl, rfl⟩
  | succ j =>
    obtain ⟨c, hc, hb⟩ := h j (Nat.lt_of_succ_lt_succ hj)
    exact ⟨c, by rw [idomAt_node_succ, hc], hb⟩

/-- A climb that does not fault stops, after one round for each visited block, at the first node
whose block is `L`. -/
theorem climb_steps {L : Option BlockId} {n : DomTreeNode} {bs : List BlockId}
    (h : climb L n = .ok bs) :
    Visits n bs ∧ (∀ b ∈ bs, some b ≠ L) ∧ ∃ c, n.idomAt bs.length = some c ∧ c.getBlock = L := by
  induction n generalizing bs with
  | root block =>
    unfold climb at h
    split at h
    · rename_i hL
      cases h
      exact ⟨visits_nil _, by simp, .root block, rfl, hL⟩
    · cases h
  | node b idom ih =>
    unfold climb at h
    split at h
    · rename_i hL
      cases h
      exact ⟨visits_nil _, by simp, .node b idom, rfl, hL⟩
    · rename_i hne
      cases hc : climb L idom with
      | error e =>
        rw [hc] at h
        cases h
      | ok cs =>
        rw [hc] at h
        cases h
        obtain ⟨hv, hcs, c, hn, hL⟩ := ih hc
        refine ⟨hv.cons, ?_, c, by rw [List.length_cons, idomAt_node_succ, hn], hL⟩
        intro x hx
        rcases List.mem_cons.mp hx with rfl | hx
        · exact hne
        · exact hcs x hx

/-- The walk from the entry block stops at the null node above the root, or at the null block of
the virtual root. -/
theorem rootWalk_steps (n : DomTreeNode) :
    Visits n (rootWalk n) ∧ (n.idomAt (rootWalk n).length).bind getBlock = none := by
  induction n with
  | root block =>
    cases block with
    | none => exact ⟨visits_nil _, rfl⟩
    | some b =>
      refine ⟨fun j hj => ?_, rfl⟩
      obtain rfl : j = 0 := Nat.lt_one_iff.mp hj
      exact ⟨.root (some b), rfl, rfl⟩
  | node b idom ih =>
    obtain ⟨hv, hend⟩ := ih
    exact ⟨hv.cons, by rw [rootWalk, List.length_cons, idomAt_node_succ, hend]⟩

/-- The walks of `computeDependencies` are safe on every control flow graph. The climb from the
target of a collected edge reaches a node with the block of the common ancestor, which may be the
null block of the virtual root, and the walk from the entry block reaches the end. -/
theorem computeDependencies_walks (M : Module) (T : PostDominatorTree) (f : FuncId) :
    (∀ heap s, computeDependencies M T f heap s ≠ .error .nullDomTreeNode) ∧
    (∀ A S domNode, (A, S) ∈ edgeSet M T f → T.getNode S = some domNode →
      ∃ bs, climb (T.findNearestCommonDominator A S) domNode = .ok bs ∧ Visits domNode bs ∧
        (∀ b ∈ bs, some b ≠ T.findNearestCommonDominator A S) ∧
        ∃ c, domNode.idomAt bs.length = some c ∧
          c.getBlock = T.findNearestCommonDominator A S) ∧
    ∀ node, (M.entryBlock f).bind T.getNode = some node →
      Visits node (rootWalk node) ∧ (node.idomAt (rootWalk node).length).bind getBlock = none := by
  refine ⟨fun heap s => ?_, fun A S domNode hE hS => ?_, fun node _ => rootWalk_steps node⟩
  · cases hfw : s.funcMap f with
    | none =>
      intro h
      simp only [computeDependencies, FuncMap.get, hfw] at h
      cases h
    | some fw =>
      obtain ⟨s', hs'⟩ := computeDependencies_ok (M := M) (T := T) heap hfw
      rw [hs']
      intro h
      cases h
  · obtain ⟨_, _, hd⟩ := mem_edgeSet.mp hE
    obtain ⟨nA, hA, _⟩ := PostDominatorTree.exists_node_of_not_dominates hd
    obtain ⟨bs, hbs, _⟩ := climb_spec hd hA hS
    exact ⟨bs, hbs, climb_steps hbs⟩

end CDG
end DepTaint
