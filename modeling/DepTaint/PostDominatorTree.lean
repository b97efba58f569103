import Mathlib.Data.List.Basic
import DepTaint.IR

/-!
# PostDominatorTree

LLVM's post-dominator tree as the control dependence pass uses it, and the path-based definition it
is compared with.

A tree node knows its block and its immediate dominator. The block of the root is null when the
root is virtual; a block that reaches no exit has no node. `PostDominatorTree` carries that its
nodes form one tree and that a block names at most one node, so walks up the tree are structural
and any two nodes have a common ancestor.

* `PostDominates`: every path from a block to an exit meets the other block.
* `PostDominatorTree.Correct`: ancestors in the tree are exactly the post-dominators.
-/

namespace DepTaint

/-- A `DomTreeNode`; the null block of the root stands for the virtual root. -/
inductive DomTreeNode where
  | root (block : Option BlockId)
  | node (block : BlockId) (idom : DomTreeNode)
deriving DecidableEq

namespace DomTreeNode

def getBlock : DomTreeNode → Option BlockId
  | .root block => block
  | .node block _ => some block

/-- The node and its ancestors, up to the root. -/
def chain : DomTreeNode → List DomTreeNode
  | .root block => [.root block]
  | .node block idom => .node block idom :: idom.chain

def getRoot : DomTreeNode → DomTreeNode
  | .root block => .root block
  | .node _ idom => idom.getRoot

@[simp] theorem self_mem_chain (n : DomTreeNode) : n ∈ n.chain := by
  cases n <;> simp [chain]

theorem getRoot_mem_chain (n : DomTreeNode) : n.getRoot ∈ n.chain := by
  induction n with
  | root b => simp [chain, getRoot]
  | node b d ih => simp [chain, getRoot, ih]

/-- The ancestors of an ancestor are ancestors. -/
theorem chain_trans {a b c : DomTreeNode} (hb : b ∈ a.chain) (hc : c ∈ b.chain) : c ∈ a.chain := by
  induction a with
  | root x =>
    simp only [chain, List.mem_singleton] at hb
    subst hb
    exact hc
  | node x d ih =>
    simp only [chain, List.mem_cons] at hb
    rcases hb with rfl | hb
    · exact hc
    · simp [chain, ih hb]

/-- Only the root can have the null block. -/
theorem eq_root_of_getBlock {n : DomTreeNode} (h : n.getBlock = none) : n = n.getRoot := by
  cases n with
  | root b => rfl
  | node b d => cases h

end DomTreeNode

structure PostDominatorTree where
  getNode : BlockId → Option DomTreeNode
  /-- The node of a block carries the block. -/
  getBlock_eq : ∀ b n, getNode b = some n → n.getBlock = some b
  /-- A block occurs in the tree at its own node only. -/
  getNode_eq : ∀ b n, getNode b = some n → ∀ m ∈ n.chain, ∀ c, m.getBlock = some c →
    getNode c = some m
  /-- The nodes form one tree. -/
  getRoot_eq : ∀ b c n m, getNode b = some n → getNode c = some m → n.getRoot = m.getRoot

namespace PostDominatorTree

/-- `dominates(A, B)`: a block without a node is dominated by every block and dominates none other
than itself. -/
def dominates (T : PostDominatorTree) (A B : BlockId) : Bool :=
  A == B ||
    match T.getNode B with
    | none => true
    | some nodeB =>
      match T.getNode A with
      | none => false
      | some nodeA => decide (nodeA ∈ nodeB.chain)

/-- `findNearestCommonDominator(A, B)`: the block of the nearest common ancestor, null for the
virtual root. -/
def findNearestCommonDominator (T : PostDominatorTree) (A B : BlockId) : Option BlockId :=
  if T.dominates B A then some B
  else if T.dominates A B then some A
  else
    match T.getNode A, T.getNode B with
    | some nodeA, some nodeB =>
      (nodeB.chain.tail.find? fun n => decide (n ∈ nodeA.chain)).bind DomTreeNode.getBlock
    | _, _ => none

/-- The tree of height one with children `cs`. -/
def star (r : Option BlockId) (cs : List BlockId) (hr : ∀ b ∈ cs, r ≠ some b) :
    PostDominatorTree where
  getNode b :=
    if r = some b then some (.root r)
    else if b ∈ cs then some (.node b (.root r))
    else none
  getBlock_eq := by
    intro b n h
    split at h
    · rename_i hb
      cases h
      exact hb
    · split at h
      · cases h
        rfl
      · cases h
  getNode_eq := by
    have hroot : ∀ c, (DomTreeNode.root r).getBlock = some c → r = some c := fun c h => h
    intro b n h m hm c hc
    split at h
    · cases h
      rw [DomTreeNode.chain, List.mem_singleton] at hm
      subst hm
      rw [if_pos (hroot c hc)]
    · split at h
      · rename_i hb
        cases h
        rw [DomTreeNode.chain, DomTreeNode.chain, List.mem_cons, List.mem_singleton] at hm
        rcases hm with rfl | rfl
        · cases hc
          rw [if_neg (hr b hb), if_pos hb]
        · rw [if_pos (hroot c hc)]
      · cases h
  getRoot_eq := by
    have hroot : ∀ b n, (if r = some b then some (DomTreeNode.root r)
        else if b ∈ cs then some (.node b (.root r)) else none) = some n → n.getRoot = .root r := by
      intro b n h
      split at h
      · cases h
        rfl
      · split at h
        · cases h
          rfl
        · cases h
    intro b c n m hn hm
    rw [hroot b n hn, hroot c m hm]

/-- The tree of three blocks of which the first may skip the second. -/
def ifThen : PostDominatorTree := star (some 2) [0, 1] (by decide)

end PostDominatorTree

/-! ## Post-dominance by paths -/

/-- A path of the control flow graph, with the blocks it visits. -/
inductive Path (succs : BlockId → List BlockId) : BlockId → BlockId → List BlockId → Prop where
  | refl (A : BlockId) : Path succs A A [A]
  | cons {A B C : BlockId} {bs : List BlockId} : B ∈ succs A → Path succs B C bs →
      Path succs A C (A :: bs)

/-- An exit block has no successor. -/
def ReachesExit (succs : BlockId → List BlockId) (A : BlockId) : Prop :=
  ∃ E bs, succs E = [] ∧ Path succs A E bs

/-- `B` post-dominates `A`: every path from `A` to an exit block meets `B`. -/
def PostDominates (succs : BlockId → List BlockId) (B A : BlockId) : Prop :=
  ∀ E bs, succs E = [] → Path succs A E bs → B ∈ bs

/-- The tree has a node for exactly the blocks that reach an exit, the ancestors of a node are the
post-dominators of its block, and the root is virtual unless there is exactly one exit. -/
structure PostDominatorTree.Correct (T : PostDominatorTree) (succs : BlockId → List BlockId)
    (blocks : List BlockId) : Prop where
  node_iff : ∀ A ∈ blocks, (∃ n, T.getNode A = some n) ↔ ReachesExit succs A
  chain_iff : ∀ A ∈ blocks, ∀ n, T.getNode A = some n → ∀ B,
    (∃ m ∈ n.chain, m.getBlock = some B) ↔ PostDominates succs B A
  root_eq : ∀ A n, T.getNode A = some n → n.getRoot =
    .root (match blocks.filter fun E => (succs E).isEmpty with
      | [E] => some E
      | _ => none)

/-! ## The nearest common ancestor -/

namespace DomTreeNode

theorem length_chain_le {a b : DomTreeNode} (h : b ∈ a.chain) : b.chain.length ≤ a.chain.length := by
  induction a with
  | root x =>
    simp only [chain, List.mem_singleton] at h
    exact Nat.le_of_eq (by rw [h])
  | node x d ih =>
    simp only [chain, List.mem_cons] at h
    rcases h with rfl | h
    · exact Nat.le_refl _
    · have := ih h
      simp only [chain, List.length_cons]
      omega

theorem chain_antisymm {a b : DomTreeNode} (hb : b ∈ a.chain) (ha : a ∈ b.chain) : a = b := by
  cases a with
  | root x =>
    simp only [chain, List.mem_singleton] at hb
    exact hb.symm
  | node x d =>
    simp only [chain, List.mem_cons] at hb
    rcases hb with rfl | hb
    · rfl
    · have h1 := length_chain_le hb
      have h2 := length_chain_le ha
      simp only [chain, List.length_cons] at h2
      omega

/-- What follows a node in a chain are its ancestors. -/
theorem chain_of_append {a c : DomTreeNode} {pre post : List DomTreeNode}
    (h : a.chain = pre ++ c :: post) : c.chain = c :: post := by
  induction a generalizing pre with
  | root x =>
    cases pre with
    | nil =>
      simp only [chain, List.nil_append, List.cons.injEq] at h
      obtain ⟨rfl, rfl⟩ := h
      rfl
    | cons p pre => simp [chain] at h
  | node x d ih =>
    cases pre with
    | nil =>
      simp only [chain, List.nil_append, List.cons.injEq] at h
      obtain ⟨rfl, rfl⟩ := h
      rfl
    | cons p pre =>
      simp only [chain, List.cons_append, List.cons.injEq] at h
      exact ih h.2

theorem chain_eq_cons (a : DomTreeNode) : a.chain = a :: a.chain.tail := by
  cases a <;> simp [chain]

theorem getRoot_of_mem {a b : DomTreeNode} (h : b ∈ a.chain) : b.getRoot = a.getRoot := by
  induction a with
  | root x =>
    simp only [chain, List.mem_singleton] at h
    rw [h]
  | node x d ih =>
    simp only [chain, List.mem_cons] at h
    rcases h with rfl | h
    · rfl
    · exact ih h

end DomTreeNode

namespace PostDominatorTree

variable {T : PostDominatorTree} {A S : BlockId}

/-- A CFG edge the pass collects starts at a block that has a node. -/
theorem exists_node_of_not_dominates (h : T.dominates S A = false) :
    ∃ nA, T.getNode A = some nA ∧ ∀ nS, T.getNode S = some nS → nS ∉ nA.chain := by
  unfold dominates at h
  rw [Bool.or_eq_false_iff] at h
  cases hA : T.getNode A with
  | none =>
    rw [hA] at h
    exact absurd h.2 (by simp)
  | some nA =>
    refine ⟨nA, rfl, fun nS hS => ?_⟩
    rw [hA, hS] at h
    simpa using h.2

theorem mem_chain_of_dominates {nA nS : DomTreeNode} (hd : T.dominates A S = true)
    (hA : T.getNode A = some nA) (hS : T.getNode S = some nS) : nA ∈ nS.chain := by
  unfold dominates at hd
  rw [hS, hA] at hd
  rcases Bool.or_eq_true_iff.mp hd with h | h
  · obtain rfl : A = S := by simpa using h
    rw [hA] at hS
    cases hS
    simp
  · simpa using h

/-- The nearest common dominator is the block of the first ancestor of `S` that is an ancestor of
`A`, and no other ancestor of `S` outside the ancestors of `A` has that block. -/
theorem findNearestCommonDominator_spec {nA nS : DomTreeNode} (hd : T.dominates S A = false)
    (hA : T.getNode A = some nA) (hS : T.getNode S = some nS) :
    (∃ c ∈ nS.chain, c.getBlock = T.findNearestCommonDominator A S ∧
      ∀ m ∈ nS.chain, m ∈ nA.chain → m ∈ c.chain) ∧
    ∀ m ∈ nS.chain, m.getBlock = T.findNearestCommonDominator A S → m ∈ nA.chain := by
  have hnot : nS ∉ nA.chain := by
    obtain ⟨n, hn, h⟩ := exists_node_of_not_dominates hd
    rw [hA] at hn
    cases hn
    exact h nS hS
  unfold findNearestCommonDominator
  rw [hd]
  simp only [Bool.false_eq_true, if_false]
  by_cases hAS : T.dominates A S = true
  · -- `A` post-dominates its successor, as at a loop header
    rw [if_pos hAS]
    have hmem : nA ∈ nS.chain := mem_chain_of_dominates hAS hA hS
    refine ⟨⟨nA, hmem, T.getBlock_eq A nA hA, fun m _ h => h⟩, fun m hm hb => ?_⟩
    have := T.getNode_eq S nS hS m hm A hb
    rw [hA] at this
    cases this
    simp
  · rw [if_neg hAS, hA, hS]
    simp only
    cases hf : nS.chain.tail.find? fun n => decide (n ∈ nA.chain) with
    | none =>
      -- the common root would have been found
      exfalso
      have hroot : nS.getRoot ∈ nA.chain := by
        rw [T.getRoot_eq S A nS nA hS hA]
        exact nA.getRoot_mem_chain
      have hin := nS.getRoot_mem_chain
      rw [nS.chain_eq_cons, List.mem_cons] at hin
      rcases hin with he | hin
      · exact hnot (he ▸ hroot)
      · simpa [hroot] using List.find?_eq_none.mp hf _ hin
    | some c =>
      obtain ⟨hc, pre, post, htail, hpre⟩ := List.find?_eq_some_iff_append.mp hf
      have hcA : c ∈ nA.chain := by simpa using hc
      have hchain : nS.chain = (nS :: pre) ++ c :: post := by
        rw [nS.chain_eq_cons, htail]
        rfl
      have hcS : c ∈ nS.chain := by simp [hchain]
      simp only [Option.bind_some]
      refine ⟨⟨c, hcS, rfl, fun m hm hmA => ?_⟩, fun m hm hb => ?_⟩
      · rw [hchain, List.mem_append] at hm
        rcases hm with hm | hm
        · rcases List.mem_cons.mp hm with rfl | hm
          · exact absurd hmA hnot
          · have := hpre m hm
            simp [hmA] at this
        · rw [DomTreeNode.chain_of_append hchain]
          exact hm
      · cases hcb : c.getBlock with
        | some b =>
          have h1 := T.getNode_eq S nS hS c hcS b hcb
          have h2 := T.getNode_eq S nS hS m hm b (hb.trans hcb)
          rw [h1] at h2
          cases h2
          exact hcA
        | none =>
          -- both nodes are the virtual root
          rw [DomTreeNode.eq_root_of_getBlock (hb.trans hcb), DomTreeNode.getRoot_of_mem hm,
            ← DomTreeNode.getRoot_of_mem hcS, ← DomTreeNode.eq_root_of_getBlock hcb]
          exact hcA

end PostDominatorTree

end DepTaint
