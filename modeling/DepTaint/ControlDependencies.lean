import DepTaint.DependencyGraph
import DepTaint.FunctionWrapper
import DepTaint.PostDominatorTree

/-!
# ControlDependencies

The control dependency graph (`ControlDependencyGraph::computeDependencies`).

The pass links the ENTRY wrapper to the blocks on the walk up the post-dominator tree from the
entry block, and the terminator of `A` to the blocks on the walk from a successor of `A` up to the
nearest common ancestor. Every link goes to all instructions of a block.

* `climb_spec`: the walk never runs off the tree, and visits exactly the ancestors of the successor
  that are no ancestors of `A`.
* `computeDependencies_spec`: one run does not fault, and adds exactly the links of `Link`.
-/

namespace DepTaint
namespace CDG

structure State where
  reg : Registry
  funcMap : FuncMap
  cdg : DependencyGraph WrapperPtr

section Model

variable (M : Module) (T : PostDominatorTree) (f : FuncId)

/-- `getDependenceType(A, B)`; `B` is a successor of `A`, so the assertion of the source holds. -/
def getDependenceType (A B : BlockId) : ControlType :=
  match (M.terminator f A).map M.kind with
  | some (.condBr _ succ0 succ1) =>
    if succ0 = B then .TRUE else if succ1 = B then .FALSE else .OTHER
  | _ => .OTHER

/-- `CDG->addDependency(from, instMap[i], type)`. -/
def addInst (src : WrapperPtr) (type : Int) (s : State) (i : InstId) : State :=
  { s with
    reg := s.reg.touch (some i)
    cdg := s.cdg.addDependency src (s.reg.instMapAt (some i)) type }

/-- `addDependency(InstructionWrapper *from, BasicBlock *to, type)`. -/
def addBlock (src : WrapperPtr) (type : Int) (s : State) (dst : BlockId) : State :=
  (M.blockInsts f dst).foldl (addInst src type) s

/-- `addDependency(BasicBlock *from, BasicBlock *to, type)`: for `from == to` the source repeats
the same loop over the same instructions. -/
def addBlocks (src : BlockId) (type : Int) (s : State) (dst : BlockId) : State :=
  let Ins := M.terminator f src
  addBlock M f (s.reg.instMapAt Ins) type { s with reg := s.reg.touch Ins } dst

/-- The blocks visited by `while (node && node->getBlock())`. -/
def rootWalk : DomTreeNode → List BlockId
  | .root none => []
  | .root (some b) => [b]
  | .node b idom => b :: rootWalk idom

/-- The blocks visited by `while (domNode->getBlock() != L)`. Past the root `domNode` is null. -/
def climb (L : Option BlockId) : DomTreeNode → Except Fault (List BlockId)
  | .root block => if block = L then .ok [] else .error .nullDomTreeNode
  | .node b idom =>
    if some b = L then .ok []
    else
      match climb L idom with
      | .ok bs => .ok (b :: bs)
      | .error e => .error e

/-- `EdgeSet`: the CFG edges `(A, S)` where `S` does not post-dominate `A`. -/
def edgeSet : List (BlockId × BlockId) :=
  (M.blockIds f).flatMap fun A =>
    ((M.succs f A).filter fun S => !T.dominates S A).map fun S => (A, S)

/-- The body of the loop over `EdgeSet`. -/
def addEdge (s : State) (Edge : BlockId × BlockId) : Except Fault State :=
  let L := T.findNearestCommonDominator Edge.1 Edge.2
  let type := getDependenceType M f Edge.1 Edge.2
  match T.getNode Edge.2 with
  | none => .ok s
  | some domNode =>
    match climb L domNode with
    | .error e => .error e
    | .ok bs => .ok (bs.foldl (addBlocks M f Edge.1 type.toInt) s)

/-- `computeDependencies(F, PDT)`. -/
def computeDependencies (heap : Heap) (s : State) : Except Fault State := do
  let root := s.reg.entryWrapper heap f
  let fw ← s.funcMap.get f
  let s : State :=
    { s with
      reg := s.reg.insertEntry f root
      funcMap := s.funcMap.set f { fw with entryW := .to root } }
  let s :=
    match (M.entryBlock f).bind T.getNode with
    | none => s
    | some node => (rootWalk node).foldl (addBlock M f (.to root) DependencyType.control.toInt) s
  (edgeSet M T f).foldlM (addEdge M T f) s

/-- `runOnFunction(F)`, which only registers the instructions. -/
def runOnFunction (heap : Heap) (s : State) : State :=
  { s with reg := s.reg.constructInstMap heap M f }

end Model

/-! ## The walks -/

theorem mem_rootWalk {n : DomTreeNode} {b : BlockId} :
    b ∈ rootWalk n ↔ ∃ m ∈ n.chain, m.getBlock = some b := by
  induction n with
  | root x => cases x <;> simp [rootWalk, DomTreeNode.chain, DomTreeNode.getBlock, eq_comm]
  | node x d ih => simp [rootWalk, DomTreeNode.chain, DomTreeNode.getBlock, ih, eq_comm]

/-- The walk from `n` up to block `L` stops at `c` and collects the blocks below the nodes in `P`,
when `P` holds of the ancestors of `c` and of no other node of block `L`. -/
theorem climb_collects {L : Option BlockId} {P : DomTreeNode → Prop}
    (hup : ∀ m, P m → ∀ k ∈ m.chain, P k) :
    ∀ n : DomTreeNode, (∀ m ∈ n.chain, m.getBlock = L → P m) →
      (∃ c ∈ n.chain, c.getBlock = L ∧ ∀ m ∈ n.chain, P m → m ∈ c.chain) →
      ∃ bs, climb L n = .ok bs ∧ ∀ b, b ∈ bs ↔ ∃ m ∈ n.chain, ¬ P m ∧ m.getBlock = some b := by
  intro n
  induction n with
  | root x =>
    intro hL h
    obtain ⟨c, hc, hcL, _⟩ := h
    simp only [DomTreeNode.chain, List.mem_singleton] at hc
    subst hc
    refine ⟨[], by simpa [climb, DomTreeNode.getBlock] using hcL, fun b => ?_⟩
    have hP := hL (.root x) (by simp) hcL
    simp [DomTreeNode.chain, hP]
  | node x d ih =>
    intro hL h
    obtain ⟨c, hc, hcL, hcP⟩ := h
    by_cases hx : some x = L
    · have hP := hL (.node x d) (by simp) hx
      refine ⟨[], by simp [climb, hx], fun b => ?_⟩
      simp only [List.not_mem_nil, false_iff, not_exists, not_and]
      intro m hm hnP
      exact absurd (hup _ hP m hm) hnP
    · have hne : c ≠ .node x d := by
        rintro rfl
        exact hx hcL
      have hcd : c ∈ d.chain := by
        simp only [DomTreeNode.chain, List.mem_cons] at hc
        exact hc.resolve_left hne
      have hsub : ∀ m ∈ d.chain, m ∈ (DomTreeNode.node x d).chain := by
        intro m hm
        simp [DomTreeNode.chain, hm]
      obtain ⟨bs, hbs, hmem⟩ := ih (fun m hm => hL m (hsub m hm))
        ⟨c, hcd, hcL, fun m hm => hcP m (hsub m hm)⟩
      have hnP : ¬ P (.node x d) := fun hP =>
        hne (DomTreeNode.chain_antisymm (hcP _ (by simp) hP) hc)
      refine ⟨x :: bs, by simp [climb, hx, hbs], fun b => ?_⟩
      simp only [List.mem_cons, hmem, DomTreeNode.chain]
      constructor
      · rintro (rfl | ⟨m, hm, hmP, hmb⟩)
        · exact ⟨_, .inl rfl, hnP, rfl⟩
        · exact ⟨m, .inr hm, hmP, hmb⟩
      · intro h
        obtain ⟨m, rfl | hm, hmP, hmb⟩ := h
        · exact .inl (Option.some.inj hmb).symm
        · exact .inr ⟨m, hm, hmP, hmb⟩

/-- The walk of one collected edge visits the ancestors of the target that are no ancestors of the
source, and never takes a null node. -/
theorem climb_spec {T : PostDominatorTree} {A S : BlockId} {nA nS : DomTreeNode}
    (hd : T.dominates S A = false) (hA : T.getNode A = some nA) (hS : T.getNode S = some nS) :
    ∃ bs, climb (T.findNearestCommonDominator A S) nS = .ok bs ∧
      ∀ b, b ∈ bs ↔ ∃ m ∈ nS.chain, m ∉ nA.chain ∧ m.getBlock = some b := by
  obtain ⟨hc, hL⟩ := PostDominatorTree.findNearestCommonDominator_spec hd hA hS
  exact climb_collects (P := fun m => m ∈ nA.chain)
    (fun m hm k hk => DomTreeNode.chain_trans hm hk) nS hL hc

/-! ## The links of the graph -/

theorem mem_edgeSet {M : Module} {T : PostDominatorTree} {f : FuncId} {A S : BlockId} :
    (A, S) ∈ edgeSet M T f ↔
      A ∈ M.blockIds f ∧ S ∈ M.succs f A ∧ T.dominates S A = false := by
  simp only [edgeSet, List.mem_flatMap, List.mem_map, List.mem_filter, Prod.mk.injEq]
  constructor
  · intro h
    obtain ⟨A, hA, S, ⟨hS, hd⟩, rfl, rfl⟩ := h
    exact ⟨hA, hS, by simpa using hd⟩
  · intro h
    obtain ⟨hA, hS, hd⟩ := h
    exact ⟨A, hA, S, ⟨hS, by simp [hd]⟩, rfl, rfl⟩

/-- The ENTRY wrapper of `f` controls the instructions of the blocks on the walk from the entry
block to the root. -/
def EntryControls (M : Module) (T : PostDominatorTree) (f : FuncId) (j : InstId) : Prop :=
  ∃ E n, M.entryBlock f = some E ∧ T.getNode E = some n ∧
    ∃ m ∈ n.chain, ∃ b, m.getBlock = some b ∧ j ∈ M.blockInsts f b

/-- The edge `(A, S)` makes the terminator of `A` control the instructions of the blocks whose node
is an ancestor of `S` but not of `A`. -/
def EdgeControls (M : Module) (T : PostDominatorTree) (f : FuncId) (A S : BlockId) (j : InstId) :
    Prop :=
  (A, S) ∈ edgeSet M T f ∧ ∃ nA nS, T.getNode A = some nA ∧ T.getNode S = some nS ∧
    ∃ m ∈ nS.chain, m ∉ nA.chain ∧ ∃ b, m.getBlock = some b ∧ j ∈ M.blockInsts f b

/-- The links one run on `f` adds, when `root` is the ENTRY wrapper and `ptr k` the value of
`instMap[k]`. -/
inductive Link (M : Module) (T : PostDominatorTree) (f : FuncId) (root : InstructionWrapper)
    (ptr : Option InstId → WrapperPtr) : WrapperPtr → WrapperPtr → Int → Prop where
  | root {j : InstId} : EntryControls M T f j →
      Link M T f root ptr (.to root) (ptr (some j)) DependencyType.control.toInt
  | edge {A S : BlockId} {j : InstId} : EdgeControls M T f A S j →
      Link M T f root ptr (ptr (M.terminator f A)) (ptr (some j)) (getDependenceType M f A S).toInt

theorem mem_insts_of_block {M : Module} {f : FuncId} {b : BlockId} {i : InstId}
    (hi : i ∈ M.blockInsts f b) : i ∈ M.insts f := by
  unfold Module.blockInsts at hi
  cases hB : (M.func f).blocks.find? fun B => B.id == b with
  | none => simp [hB] at hi
  | some B => exact List.mem_flatMap.mpr ⟨B, List.mem_of_find?_eq_some hB, by simpa [hB] using hi⟩

theorem mem_insts_of_terminator {M : Module} {f : FuncId} {A : BlockId} {i : InstId}
    (h : M.terminator f A = some i) : i ∈ M.insts f :=
  mem_insts_of_block (List.mem_of_getLast? h)

theorem EntryControls.mem_insts {M : Module} {T : PostDominatorTree} {f : FuncId} {j : InstId}
    (h : EntryControls M T f j) : j ∈ M.insts f := by
  obtain ⟨_, _, _, _, _, _, _, _, hj⟩ := h
  exact mem_insts_of_block hj

theorem EdgeControls.mem_insts {M : Module} {T : PostDominatorTree} {f : FuncId} {A S : BlockId}
    {j : InstId} (h : EdgeControls M T f A S j) : j ∈ M.insts f := by
  obtain ⟨_, _, _, _, _, _, _, _, _, _, hj⟩ := h
  exact mem_insts_of_block hj

/-- The links only depend on the wrappers of `f`. -/
theorem Link.congr {M : Module} {T : PostDominatorTree} {f : FuncId}
    {root : InstructionWrapper} {ptr ptr' : Option InstId → WrapperPtr}
    (h : ∀ k, (∀ i, k = some i → i ∈ M.insts f) → ptr k = ptr' k) {p q : WrapperPtr} {t : Int}
    (hl : Link M T f root ptr p q t) : Link M T f root ptr' p q t := by
  cases hl with
  | @root j hj =>
    rw [h (some j) (by rintro _ ⟨⟩; exact hj.mem_insts)]
    exact .root hj
  | @edge A S j hj =>
    rw [h (some j) (by rintro _ ⟨⟩; exact hj.mem_insts),
      h (M.terminator f A) fun i hi => mem_insts_of_terminator hi]
    exact .edge hj

/-- Only a conditional branch labels its links with a side. -/
theorem getDependenceType_of_ne {M : Module} {f : FuncId} {A S : BlockId} {i : InstId}
    (hi : M.terminator f A = some i) (hk : ∀ c succ0 succ1, M.kind i ≠ .condBr c succ0 succ1) :
    getDependenceType M f A S = .OTHER := by
  unfold getDependenceType
  rw [hi, Option.map_some]
  split
  · rename_i c succ0 succ1 he
    exact absurd (Option.some.inj he) (hk c succ0 succ1)
  · rfl

section Run

variable {heap : Heap} {M : Module} {T : PostDominatorTree} {f : FuncId} {R : Registry}
  {m : FuncMap} {s : State}

/-- No iteration of the loop over `EdgeSet` faults. -/
theorem addEdge_ok {A S : BlockId} (hE : (A, S) ∈ edgeSet M T f) :
    ∃ s', addEdge M T f s (A, S) = .ok s' := by
  obtain ⟨_, _, hd⟩ := mem_edgeSet.mp hE
  obtain ⟨nA, hA, _⟩ := PostDominatorTree.exists_node_of_not_dominates hd
  unfold addEdge
  cases hS : T.getNode S with
  | none => exact ⟨s, rfl⟩
  | some nS =>
    obtain ⟨bs, hbs, _⟩ := climb_spec hd hA hS
    simp only [hbs]
    exact ⟨_, rfl⟩

variable (heap) in
/-- A run on `f` does not fault, whatever the registries hold. -/
theorem computeDependencies_ok {fw : FunctionWrapper} (hfw : s.funcMap f = some fw) :
    ∃ s', computeDependencies M T f heap s = .ok s' := by
  simp only [computeDependencies, FuncMap.get_of_some hfw]
  obtain ⟨s', hs', _⟩ := foldlM_invariant (f := addEdge M T f) (l := edgeSet M T f)
    (P := fun _ _ => True) trivial fun pre E post s1 hx _ =>
      (addEdge_ok (by simp [hx])).imp fun s2 h => ⟨h, trivial⟩
  exact ⟨s', hs'⟩

/-- The rule of one iteration of that loop: what the links of every walked block keep. -/
theorem addEdge_preserves {P : State → Prop} {A S : BlockId} {s' : State}
    (hs : addEdge M T f s (A, S) = .ok s') (h : P s)
    (hedge : ∀ nS, T.getNode S = some nS → ∀ b s1, P s1 →
      P (addBlocks M f A (getDependenceType M f A S).toInt s1 b)) : P s' := by
  unfold addEdge at hs
  cases hS : T.getNode S with
  | none =>
    simp only [hS] at hs
    cases hs
    exact h
  | some nS =>
    simp only [hS] at hs
    cases hc : climb (T.findNearestCommonDominator A S) nS with
    | error e =>
      simp only [hc] at hs
      cases hs
    | ok bs =>
      simp only [hc] at hs
      cases hs
      exact foldl_preserves h fun s1 b _ => hedge nS hS b s1

/-- The rule of one run on `f`. -/
theorem computeDependencies_preserves {P : State → Prop} {s' : State}
    (hrun : computeDependencies M T f heap s = .ok s')
    (h : ∀ fw, s.funcMap f = some fw → P { s with
      reg := s.reg.insertEntry f (s.reg.entryWrapper heap f)
      funcMap := s.funcMap.set f { fw with entryW := .to (s.reg.entryWrapper heap f) } })
    (hroot : ∀ node, (M.entryBlock f).bind T.getNode = some node → ∀ b s1, P s1 →
      P (addBlock M f (.to (s.reg.entryWrapper heap f)) DependencyType.control.toInt s1 b))
    (hedge : ∀ A S nS, (A, S) ∈ edgeSet M T f → T.getNode S = some nS → ∀ b s1, P s1 →
      P (addBlocks M f A (getDependenceType M f A S).toInt s1 b)) : P s' := by
  cases hfw : s.funcMap f with
  | none =>
    simp only [computeDependencies, FuncMap.get, hfw] at hrun
    cases hrun
  | some fw =>
    simp only [computeDependencies, FuncMap.get_of_some hfw] at hrun
    refine foldlM_preserves hrun ?_ ?_
    · split
      · exact h fw hfw
      · rename_i node hn
        exact foldl_preserves (h fw hfw) fun s1 b _ hs => hroot node hn b s1 hs
    · rintro s1 ⟨A, S⟩ s2 hE hs hP
      exact addEdge_preserves hs hP fun nS hS b => hedge A S nS hE hS b

/-- What the loops of the pass keep. -/
structure Keeps (heap : Heap) (M : Module) (f : FuncId) (R : Registry) (m : FuncMap)
    (s : State) : Prop where
  sees : Registry.Sees heap M f R s.reg
  funcMap : s.funcMap = m

/-- The instruction loop of the first `addDependency`. -/
theorem addBlock_spec (h : Keeps heap M f R m s) (hR : R.Registered M f)
    (src : WrapperPtr) (type : Int) (b : BlockId) :
    Keeps heap M f R m (addBlock M f src type s b) ∧
      ∀ p q t, (addBlock M f src type s b).cdg.HasLink p q t ↔ s.cdg.HasLink p q t ∨
        ∃ i ∈ M.blockInsts f b, p = src ∧ q = R.instMapAt (some i) ∧ t = type := by
  have hkeep : ∀ s i, i ∈ M.blockInsts f b → Keeps heap M f R m s →
      Keeps heap M f R m (addInst src type s i) := by
    intro s i hi hs
    refine ⟨hs.sees.touch hR ?_, hs.funcMap⟩
    rintro _ ⟨⟩
    exact mem_insts_of_block hi
  refine ⟨foldl_preserves h hkeep, fun p q t => ?_⟩
  unfold addBlock
  refine foldl_iff (R := fun s : State => s.cdg.HasLink p q t) h hkeep fun s i _ hs => ?_
  simp only [addInst, DependencyGraph.hasLink_addDependency, hs.sees.instMapAt]

/-- The instruction loops of the second `addDependency`. -/
theorem addBlocks_spec (h : Keeps heap M f R m s) (hR : R.Registered M f)
    (A : BlockId) (type : Int) (b : BlockId) :
    Keeps heap M f R m (addBlocks M f A type s b) ∧
      ∀ p q t, (addBlocks M f A type s b).cdg.HasLink p q t ↔ s.cdg.HasLink p q t ∨
        ∃ i ∈ M.blockInsts f b, p = R.instMapAt (M.terminator f A) ∧
          q = R.instMapAt (some i) ∧ t = type := by
  have hA : ∀ i, M.terminator f A = some i → i ∈ M.insts f := fun i hi =>
    mem_insts_of_terminator hi
  unfold addBlocks
  rw [← h.sees.instMapAt]
  exact addBlock_spec (s := { s with reg := s.reg.touch (M.terminator f A) })
    ⟨h.sees.touch hR hA, h.funcMap⟩ hR _ type b

/-- A loop over the blocks of a walk. -/
theorem foldl_block_spec {g : State → BlockId → State} {src : WrapperPtr} {type : Int}
    (hg : ∀ s b, Keeps heap M f R m s → Keeps heap M f R m (g s b) ∧
      ∀ p q t, (g s b).cdg.HasLink p q t ↔ s.cdg.HasLink p q t ∨
        ∃ i ∈ M.blockInsts f b, p = src ∧ q = R.instMapAt (some i) ∧ t = type)
    (h : Keeps heap M f R m s) (bs : List BlockId) :
    Keeps heap M f R m (bs.foldl g s) ∧
      ∀ p q t, (bs.foldl g s).cdg.HasLink p q t ↔ s.cdg.HasLink p q t ∨
        ∃ b ∈ bs, ∃ i ∈ M.blockInsts f b, p = src ∧ q = R.instMapAt (some i) ∧ t = type :=
  ⟨foldl_preserves h fun s b _ hs => (hg s b hs).1,
    fun p q t => foldl_iff (R := fun s : State => s.cdg.HasLink p q t) h
      (fun s b _ hs => (hg s b hs).1) fun s b _ hs => (hg s b hs).2 p q t⟩

/-- One iteration of the loop over `EdgeSet`. -/
theorem addEdge_spec (h : Keeps heap M f R m s) (hR : R.Registered M f)
    {A S : BlockId} (hE : (A, S) ∈ edgeSet M T f) :
    ∃ s', addEdge M T f s (A, S) = .ok s' ∧ Keeps heap M f R m s' ∧
      ∀ p q t, s'.cdg.HasLink p q t ↔ s.cdg.HasLink p q t ∨
        ∃ j, EdgeControls M T f A S j ∧ p = R.instMapAt (M.terminator f A) ∧
          q = R.instMapAt (some j) ∧ t = (getDependenceType M f A S).toInt := by
  obtain ⟨_, _, hd⟩ := mem_edgeSet.mp hE
  obtain ⟨nA, hA, _⟩ := PostDominatorTree.exists_node_of_not_dominates hd
  unfold addEdge
  cases hS : T.getNode S with
  | none =>
    refine ⟨s, rfl, h, fun p q t => ⟨Or.inl, ?_⟩⟩
    rintro (hl | ⟨j, ⟨_, nA, nS, _, hnS, _⟩, _⟩)
    · exact hl
    · rw [hS] at hnS
      cases hnS
  | some nS =>
    obtain ⟨bs, hbs, hmem⟩ := climb_spec hd hA hS
    simp only [hbs]
    obtain ⟨hk, hl⟩ := foldl_block_spec (fun s b hs =>
      addBlocks_spec hs hR A (getDependenceType M f A S).toInt b) h bs
    refine ⟨_, rfl, hk, fun p q t => (hl p q t).trans (or_congr_right ?_)⟩
    constructor
    · intro hx
      obtain ⟨b, hb, i, hi, rfl, rfl, rfl⟩ := hx
      obtain ⟨k, hk, hkA, hkb⟩ := (hmem b).mp hb
      exact ⟨i, ⟨hE, nA, nS, hA, hS, k, hk, hkA, b, hkb, hi⟩, rfl, rfl, rfl⟩
    · intro hx
      obtain ⟨j, ⟨_, nA', nS', hA', hS', k, hk, hkA, b, hkb, hj⟩, rfl, rfl, rfl⟩ := hx
      rw [hA] at hA'
      rw [hS] at hS'
      cases hA'
      cases hS'
      exact ⟨b, (hmem b).mpr ⟨k, hk, hkA, hkb⟩, j, hj, rfl, rfl, rfl⟩

/-- The walk from the entry block. -/
theorem rootWalk_spec (h : Keeps heap M f R m s) (hR : R.Registered M f) (src : WrapperPtr) :
    let s' := match (M.entryBlock f).bind T.getNode with
      | none => s
      | some node => (rootWalk node).foldl (addBlock M f src DependencyType.control.toInt) s
    Keeps heap M f R m s' ∧ ∀ p q t, s'.cdg.HasLink p q t ↔ s.cdg.HasLink p q t ∨
      ∃ j, EntryControls M T f j ∧ p = src ∧ q = R.instMapAt (some j) ∧
        t = DependencyType.control.toInt := by
  cases hn : (M.entryBlock f).bind T.getNode with
  | none =>
    refine ⟨h, fun p q t => ⟨Or.inl, ?_⟩⟩
    rintro (hl | ⟨j, ⟨E, n, hE, hnode, _⟩, _⟩)
    · exact hl
    · rw [hE, Option.bind_some, hnode] at hn
      cases hn
  | some node =>
    obtain ⟨hk, hl⟩ := foldl_block_spec (fun s b hs =>
      addBlock_spec hs hR src DependencyType.control.toInt b) h (rootWalk node)
    refine ⟨hk, fun p q t => (hl p q t).trans (or_congr_right ?_)⟩
    obtain ⟨E, hE, hnode⟩ := Option.bind_eq_some_iff.mp hn
    constructor
    · intro hx
      obtain ⟨b, hb, i, hi, rfl, rfl, rfl⟩ := hx
      obtain ⟨k, hk, hkb⟩ := mem_rootWalk.mp hb
      exact ⟨i, ⟨E, node, hE, hnode, k, hk, b, hkb, hi⟩, rfl, rfl, rfl⟩
    · intro hx
      obtain ⟨j, ⟨E', n', hE', hnode', k, hk, b, hkb, hj⟩, rfl, rfl, rfl⟩ := hx
      rw [hE] at hE'
      cases hE'
      rw [hnode] at hnode'
      cases hnode'
      exact ⟨b, mem_rootWalk.mpr ⟨k, hk, hkb⟩, j, hj, rfl, rfl, rfl⟩

/-- The loop over the collected edges. -/
theorem addEdges_spec (h : Keeps heap M f R m s) (hR : R.Registered M f) :
    ∃ s', (edgeSet M T f).foldlM (addEdge M T f) s = .ok s' ∧ Keeps heap M f R m s' ∧
      ∀ p q t, s'.cdg.HasLink p q t ↔ s.cdg.HasLink p q t ∨
        ∃ A S j, (A, S) ∈ edgeSet M T f ∧ EdgeControls M T f A S j ∧
          p = R.instMapAt (M.terminator f A) ∧ q = R.instMapAt (some j) ∧
          t = (getDependenceType M f A S).toInt := by
  refine foldlM_invariant (P := fun pre s' => Keeps heap M f R m s' ∧
    ∀ p q t, s'.cdg.HasLink p q t ↔ s.cdg.HasLink p q t ∨
      ∃ A S j, (A, S) ∈ pre ∧ EdgeControls M T f A S j ∧
        p = R.instMapAt (M.terminator f A) ∧ q = R.instMapAt (some j) ∧
        t = (getDependenceType M f A S).toInt) ⟨h, by simp⟩ ?_
  rintro pre ⟨A, S⟩ post s1 hx ⟨hk, hl⟩
  obtain ⟨s2, hs2, hk2, hl2⟩ := addEdge_spec (T := T) hk hR (A := A) (S := S) (by simp [hx])
  refine ⟨s2, hs2, hk2, fun p q t => ?_⟩
  rw [hl2, hl, or_assoc]
  refine or_congr_right ⟨?_, ?_⟩
  · rintro (⟨A', S', j, hin, h'⟩ | ⟨j, h'⟩)
    · exact ⟨A', S', j, by simp [hin], h'⟩
    · exact ⟨A, S, j, by simp, h'⟩
  · intro hex
    obtain ⟨A', S', j, hin, h'⟩ := hex
    rcases List.mem_append.mp hin with hin | hin
    · exact .inl ⟨A', S', j, hin, h'⟩
    · simp only [List.mem_singleton, Prod.mk.injEq] at hin
      obtain ⟨rfl, rfl⟩ := hin
      exact .inr ⟨j, h'⟩

/-- One run on `f` creates the ENTRY wrapper, does not fault, and adds exactly the links of
`Link`. -/
theorem computeDependencies_spec (h : s.reg.Inv heap M) (hR : s.reg.Registered M f)
    {fw : FunctionWrapper} (hfw : s.funcMap f = some fw) :
    let root := s.reg.entryWrapper heap f
    ∃ s', computeDependencies M T f heap s = .ok s' ∧
      Keeps heap M f (s.reg.insertEntry f root)
        (s.funcMap.set f { fw with entryW := .to root }) s' ∧
      ∀ p q t, s'.cdg.HasLink p q t ↔
        s.cdg.HasLink p q t ∨ Link M T f root s.reg.instMapAt p q t := by
  intro root
  have hR1 : (s.reg.insertEntry f root).Registered M f := hR
  let s1 : State :=
    { s with
      reg := s.reg.insertEntry f root
      funcMap := s.funcMap.set f { fw with entryW := .to root } }
  have h1 : Keeps heap M f s1.reg s1.funcMap s1 := ⟨.refl h.insertEntry, rfl⟩
  obtain ⟨h2, hl2⟩ := rootWalk_spec (T := T) h1 hR1 (.to root)
  obtain ⟨s', hs', hk, hl⟩ := addEdges_spec (T := T) h2 hR1
  refine ⟨s', ?_, hk, fun p q t => ?_⟩
  · simp only [computeDependencies, FuncMap.get_of_some hfw]
    exact hs'
  · rw [hl, hl2, or_assoc]
    refine or_congr_right ⟨?_, ?_⟩
    · rintro (⟨j, hj, rfl, rfl, rfl⟩ | ⟨A, S, j, _, hj, rfl, rfl, rfl⟩)
      · exact .root hj
      · exact .edge hj
    · intro hlink
      cases hlink with
      | @root j hj => exact .inl ⟨j, hj, rfl, rfl, rfl⟩
      | @edge A S j hj => exact .inr ⟨A, S, j, hj.1, hj, rfl, rfl, rfl⟩

end Run

end CDG
end DepTaint
