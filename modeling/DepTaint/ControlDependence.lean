import Mathlib.Data.List.Pairwise
import DepTaint.ModuleLoop

/-!
# ControlDependence

The control dependency graph against the definition of control dependence by paths.

* `Dependent`: `B` post-dominates a successor of `A`, but not `A`.
* `controls_iff`: the walks of the pass find exactly the dependent blocks.
* `built_cdg_exact`: what the finished graph links the terminators and the ENTRY wrapper of a
  function to.
-/

namespace DepTaint

/-- `B` is control dependent on `A`. -/
def Dependent (succs : BlockId → List BlockId) (A B : BlockId) : Prop :=
  ∃ S ∈ succs A, PostDominates succs B S ∧ ¬ PostDominates succs B A

namespace Path

variable {succs : BlockId → List BlockId} {A B : BlockId} {bs : List BlockId}

theorem start_mem (h : Path succs A B bs) : A ∈ bs := by
  cases h <;> simp

theorem end_mem (h : Path succs A B bs) : B ∈ bs := by
  induction h with
  | refl A => simp
  | cons _ _ ih => exact List.mem_cons_of_mem _ ih

end Path

theorem PostDominates.refl (succs : BlockId → List BlockId) (A : BlockId) :
    PostDominates succs A A := fun _ _ _ hp => hp.start_mem

/-- A block is not control dependent on itself. -/
theorem not_dependent_self (succs : BlockId → List BlockId) (A : BlockId) :
    ¬ Dependent succs A A := fun ⟨_, _, _, h⟩ => h (.refl succs A)

namespace PostDominatorTree

variable {T : PostDominatorTree} {succs : BlockId → List BlockId} {blocks : List BlockId}
  {A B S : BlockId} {nA nS : DomTreeNode}

/-- In a correct tree the ancestors of `A` are the nodes of the post-dominators of `A`. -/
theorem Correct.mem_chain_iff (hT : T.Correct succs blocks) (hA : A ∈ blocks)
    (hnA : T.getNode A = some nA) {m : DomTreeNode} (hm : T.getNode B = some m) :
    m ∈ nA.chain ↔ PostDominates succs B A := by
  rw [← hT.chain_iff A hA nA hnA]
  constructor
  · intro h
    exact ⟨m, h, T.getBlock_eq B m hm⟩
  · intro hx
    obtain ⟨k, hk, hkB⟩ := hx
    have he := T.getNode_eq A nA hnA k hk B hkB
    rw [hm] at he
    cases he
    exact hk

/-- The ancestors of a successor `S` that are no ancestors of `A` carry the blocks that
post-dominate `S` but not `A`. -/
theorem Correct.walk_iff (hT : T.Correct succs blocks) (hA : A ∈ blocks) (hS : S ∈ blocks)
    (hnA : T.getNode A = some nA) (hnS : T.getNode S = some nS) :
    (∃ m ∈ nS.chain, m ∉ nA.chain ∧ m.getBlock = some B) ↔
      PostDominates succs B S ∧ ¬ PostDominates succs B A := by
  rw [← hT.chain_iff S hS nS hnS]
  constructor
  · intro h
    obtain ⟨m, hm, hmA, hB⟩ := h
    rw [hT.mem_chain_iff hA hnA (T.getNode_eq S nS hnS m hm B hB)] at hmA
    exact ⟨⟨m, hm, hB⟩, hmA⟩
  · intro h
    obtain ⟨⟨m, hm, hB⟩, hBA⟩ := h
    refine ⟨m, hm, fun hmA => hBA ?_, hB⟩
    exact (hT.mem_chain_iff hA hnA (T.getNode_eq S nS hnS m hm B hB)).mp hmA

/-- The filter of the pass drops no edge that has a dependent block. -/
theorem Correct.not_dominates (hT : T.Correct succs blocks) (hA : A ∈ blocks) (hS : S ∈ blocks)
    (hnA : T.getNode A = some nA) (hnS : T.getNode S = some nS) (hBS : PostDominates succs B S)
    (hBA : ¬ PostDominates succs B A) : T.dominates S A = false := by
  obtain ⟨m, hm, hmA, _⟩ := (hT.walk_iff hA hS hnA hnS).mpr ⟨hBS, hBA⟩
  unfold dominates
  rw [hnA, hnS, Bool.or_eq_false_iff]
  constructor
  · by_contra he
    rw [Bool.not_eq_false, beq_iff_eq] at he
    exact hBA (he ▸ hBS)
  · -- an ancestor of `S` outside the ancestors of `A` keeps `S` from being one of them
    exact decide_eq_false fun h => hmA (DomTreeNode.chain_trans h hm)

end PostDominatorTree

namespace Module

variable {M : Module} {F : FuncId} {A B S : BlockId}

/-- A block with a successor ends in a terminator. -/
theorem terminator_of_succ (hS : S ∈ M.succs F A) : ∃ i, M.terminator F A = some i := by
  unfold succs at hS
  cases hi : M.terminator F A with
  | none => simp [hi] at hS
  | some i => exact ⟨i, rfl⟩

theorem succs_mem (hF : F ∈ M.functions) (hS : S ∈ M.succs F A) : S ∈ M.blockIds F := by
  obtain ⟨i, hi⟩ := terminator_of_succ hS
  unfold succs at hS
  rw [hi] at hS
  exact M.successors_mem F hF i (CDG.mem_insts_of_terminator hi) S hS

/-- A path stays in the function. -/
theorem path_mem (hF : F ∈ M.functions) {bs : List BlockId} (hA : A ∈ M.blockIds F)
    (hp : Path (M.succs F) A B bs) : B ∈ M.blockIds F := by
  induction hp with
  | refl => exact hA
  | cons hS _ ih => exact ih (succs_mem hF hS)

end Module

namespace CDG

variable {M : Module} {T : PostDominatorTree} {F : FuncId} {A B : BlockId} {i j : InstId}

theorem mem_blockIds_of_mem (h : j ∈ M.blockInsts F B) : B ∈ M.blockIds F := by
  unfold Module.blockInsts at h
  cases hB : (M.func F).blocks.find? fun C => C.id == B with
  | none => simp [hB] at h
  | some C =>
    have hid : C.id = B := by simpa using List.find?_some hB
    exact List.mem_map.mpr ⟨C, List.mem_of_find?_eq_some hB, hid⟩

/-- An instruction is in one block. -/
theorem block_unique (hF : F ∈ M.functions) (hA : j ∈ M.blockInsts F A)
    (hB : j ∈ M.blockInsts F B) : A = B := by
  obtain ⟨C, hC, rfl⟩ := List.mem_map.mp (mem_blockIds_of_mem hA)
  obtain ⟨D, hD, rfl⟩ := List.mem_map.mp (mem_blockIds_of_mem hB)
  rw [Module.blockInsts_eq hF hC] at hA
  rw [Module.blockInsts_eq hF hD] at hB
  have hnd : (M.insts F).Nodup := (List.nodup_flatMap.mp M.insts_nodup).1 F hF
  by_contra hne
  have : Std.Symm (Function.onFun List.Disjoint BasicBlock.insts) :=
    ⟨fun _ _ h _ h1 h2 => h h2 h1⟩
  have hdisj := (List.nodup_flatMap.mp hnd).2.forall hC hD fun he => hne (he ▸ rfl)
  exact hdisj hA hB

/-- The walks of the pass on a function whose blocks all reach an exit: the terminator of `A`
controls the instructions of the blocks that are control dependent on `A`. -/
theorem controls_iff (hF : F ∈ M.functions) (hT : T.Correct (M.succs F) (M.blockIds F))
    (hexit : ∀ A ∈ M.blockIds F, ReachesExit (M.succs F) A) (hA : A ∈ M.blockIds F)
    (hi : M.terminator F A = some i) :
    Controls M T F i j ↔ ∃ B, Dependent (M.succs F) A B ∧ j ∈ M.blockInsts F B := by
  have hsucc : ∀ S ∈ M.succs F A, S ∈ M.blockIds F := fun S => Module.succs_mem hF
  obtain ⟨nA, hnA⟩ := (hT.node_iff A hA).mpr (hexit A hA)
  constructor
  · intro h
    obtain ⟨A', S, ⟨hE, nA', nS, hnA', hnS, m, hm, hmA, B, hB, hj⟩, hi'⟩ := h
    obtain rfl := block_unique hF (List.mem_of_getLast? hi) (List.mem_of_getLast? hi')
    rw [hnA] at hnA'
    cases hnA'
    obtain ⟨_, hS, _⟩ := mem_edgeSet.mp hE
    exact ⟨B, ⟨S, hS, (hT.walk_iff hA (hsucc S hS) hnA hnS).mp ⟨m, hm, hmA, hB⟩⟩, hj⟩
  · intro h
    obtain ⟨B, ⟨S, hS, hBS, hBA⟩, hj⟩ := h
    obtain ⟨nS, hnS⟩ := (hT.node_iff S (hsucc S hS)).mpr (hexit S (hsucc S hS))
    obtain ⟨m, hm, hmA, hB⟩ := (hT.walk_iff hA (hsucc S hS) hnA hnS).mpr ⟨hBS, hBA⟩
    exact ⟨A, S, ⟨mem_edgeSet.mpr ⟨hA, hS,
      hT.not_dominates hA (hsucc S hS) hnA hnS hBS hBA⟩, nA, nS, hnA, hnS, m, hm, hmA, B, hB, hj⟩,
      hi⟩

/-- The ENTRY wrapper controls the blocks that post-dominate the entry block. -/
theorem entryControls_iff (hT : T.Correct (M.succs F) (M.blockIds F))
    (hexit : ∀ A ∈ M.blockIds F, ReachesExit (M.succs F) A) :
    EntryControls M T F j ↔ ∃ E B, M.entryBlock F = some E ∧ PostDominates (M.succs F) B E ∧
      j ∈ M.blockInsts F B := by
  constructor
  · intro h
    obtain ⟨E, n, hE, hn, m, hm, B, hB, hj⟩ := h
    exact ⟨E, B, hE, (hT.chain_iff E (List.mem_of_head? hE) n hn B).mp ⟨m, hm, hB⟩, hj⟩
  · intro h
    obtain ⟨E, B, hE, hBE, hj⟩ := h
    have hmem := List.mem_of_head? hE
    obtain ⟨n, hn⟩ := (hT.node_iff E hmem).mpr (hexit E hmem)
    obtain ⟨m, hm, hB⟩ := (hT.chain_iff E hmem n hn B).mpr hBE
    exact ⟨E, n, hE, hn, m, hm, B, hB, hj⟩

end CDG

namespace PDG

section Finished

variable {M : Module} {env : Env} {F : FuncId}

/-- The CDG links the wrapper of the instruction `i` to the wrapper of `j`. -/
def CdgLinked (s : State) (i j : InstId) : Prop :=
  ∃ w w', Rep s.reg (.inst i) w ∧ Rep s.reg (.inst j) w' ∧ s.cdg.depends (.to w) (.to w') = true

theorem cdgLinked_iff (hF : F ∈ M.functions) {i j : InstId} (hi : i ∈ M.insts F)
    (hj : j ∈ M.insts F) :
    CdgLinked (built M env) i j ↔ CDG.Controls M (env.PDT F) F i j := by
  have hb := built_spec M env
  constructor
  · intro h
    obtain ⟨w, w', hw, hw', hd⟩ := h
    obtain ⟨j', hj', f, hf, ⟨he, _⟩ | ⟨i', hi', hc⟩⟩ := (hb.graphs.cdg_depends_iff hw hw').mp hd
    · cases he
    · cases hj'
      cases hi'
      obtain ⟨A, S, _, ht⟩ := id hc
      have hif := CDG.mem_insts_of_terminator ht
      rwa [Module.HasInst.unique ⟨hf, hif⟩ ⟨hF, hi⟩] at hc
  · intro hc
    obtain ⟨w, hw⟩ := hb.exists_rep (a := .inst i) ⟨F, trivial, hF, hi⟩
    obtain ⟨w', hw'⟩ := hb.exists_rep (a := .inst j) ⟨F, trivial, hF, hj⟩
    exact ⟨w, w', hw, hw',
      (hb.graphs.cdg_depends_iff hw hw').mpr ⟨j, rfl, F, hF, .inr ⟨i, rfl, hc⟩⟩⟩

/-- Every link of the CDG leads to the wrapper of an instruction. -/
theorem cdg_target {w : InstructionWrapper} {q : WrapperPtr}
    (h : (built M env).cdg.depends (.to w) q = true) :
    ∃ j w', Rep (built M env).reg (.inst j) w' ∧ q = .to w' := by
  have hb := built_spec M env
  have hreg : ∀ f ∈ M.functions, ∀ j ∈ M.insts f,
      ∃ w', Rep (built M env).reg (.inst j) w' ∧
        (built M env).reg.instMapAt (some j) = .to w' := by
    intro f hf j hj
    obtain ⟨w', hw'⟩ := hb.exists_rep (a := .inst j) ⟨f, trivial, hf, hj⟩
    exact ⟨w', hw', Registry.instMapAt_eq_to.mpr hw'⟩
  obtain ⟨t, hl⟩ := DependencyGraph.depends_iff.mp h
  obtain ⟨f, hf, root, _, hl⟩ := (hb.graphs.cdg _ _ _).mp hl
  generalize WrapperPtr.to w = p at hl
  cases hl with
  | @root j hj => exact ⟨j, hreg f hf j hj.mem_insts⟩
  | @edge A S j hj => exact ⟨j, hreg f hf j hj.mem_insts⟩

theorem cdg_entry_iff {root : InstructionWrapper} (hroot : Rep (built M env).reg (.entry F) root)
    {q : WrapperPtr} : (built M env).cdg.depends (.to root) q = true ↔
      ∃ j w', CDG.EntryControls M (env.PDT F) F j ∧ Rep (built M env).reg (.inst j) w' ∧
        q = .to w' := by
  have hb := built_spec M env
  constructor
  · intro h
    obtain ⟨j, w', hw', rfl⟩ := cdg_target h
    obtain ⟨j', hj', f, _, ⟨he, hc⟩ | ⟨i, hi, _⟩⟩ := (hb.graphs.cdg_depends_iff hroot hw').mp h
    · cases he
      cases hj'
      exact ⟨j, w', hc, hw', rfl⟩
    · cases hi
  · intro hx
    obtain ⟨j, w', hc, hw', rfl⟩ := hx
    exact (hb.graphs.cdg_depends_iff hroot hw').mpr
      ⟨j, rfl, F, (Rep.hasNode hb hroot).2.1, .inl ⟨rfl, hc⟩⟩

/-- The control dependences of a function whose blocks all reach an exit, when its post-dominator
tree is correct: the terminator of `A` is linked to every instruction of a block that is control
dependent on `A`, to none of another block, and to none of `A`; the ENTRY wrapper to exactly the
instructions of the blocks that post-dominate the entry block. -/
theorem built_cdg_exact (hF : F ∈ M.functions)
    (hexit : ∀ A ∈ M.blockIds F, ReachesExit (M.succs F) A)
    (hT : (env.PDT F).Correct (M.succs F) (M.blockIds F)) :
    (∀ A ∈ M.blockIds F, ∀ i, M.terminator F A = some i →
      (∀ B ∈ M.blockIds F, A ≠ B →
        (Dependent (M.succs F) A B → ∀ j ∈ M.blockInsts F B,
          CdgLinked (built M env) i j) ∧
        (¬ Dependent (M.succs F) A B → ∀ j ∈ M.blockInsts F B,
          ¬ CdgLinked (built M env) i j)) ∧
      ∀ j ∈ M.blockInsts F A, ¬ CdgLinked (built M env) i j) ∧
    ∀ root, Rep (built M env).reg (.entry F) root → ∀ q,
      ((built M env).cdg.depends (.to root) q = true ↔ ∃ E B, M.entryBlock F = some E ∧
        PostDominates (M.succs F) B E ∧ ∃ j ∈ M.blockInsts F B, ∃ w,
          Rep (built M env).reg (.inst j) w ∧ q = .to w) := by
  refine ⟨fun A hA i hi => ?_, fun root hroot q => ?_⟩
  · have hiF := CDG.mem_insts_of_terminator hi
    have hiff : ∀ B, ∀ j ∈ M.blockInsts F B, (CdgLinked (built M env) i j ↔
        Dependent (M.succs F) A B) := by
      intro B j hj
      rw [cdgLinked_iff hF hiF (CDG.mem_insts_of_block hj),
        CDG.controls_iff hF hT hexit hA hi]
      constructor
      · intro h
        obtain ⟨B', hd, hj'⟩ := h
        rwa [CDG.block_unique hF hj hj']
      · intro hd
        exact ⟨B, hd, hj⟩
    refine ⟨fun B _ _ => ⟨fun hd j hj => (hiff B j hj).mpr hd, fun hd j hj hl =>
      hd ((hiff B j hj).mp hl)⟩, fun j hj hl => ?_⟩
    exact not_dependent_self (M.succs F) A ((hiff A j hj).mp hl)
  · rw [cdg_entry_iff hroot]
    constructor
    · intro h
      obtain ⟨j, w, hc, hw, rfl⟩ := h
      obtain ⟨E, B, hE, hBE, hj⟩ := (CDG.entryControls_iff hT hexit).mp hc
      exact ⟨E, B, hE, hBE, j, hj, w, hw, rfl⟩
    · intro h
      obtain ⟨E, B, hE, hBE, j, hj, w, hw, rfl⟩ := h
      exact ⟨j, w, (CDG.entryControls_iff hT hexit).mpr ⟨E, B, hE, hBE, hj⟩, hw, rfl⟩

end Finished

/-! ## An if-then -/

namespace IfThen

def inst (i : InstId) : Instruction :=
  Option.getD (List.lookup i [
    (0, ⟨"", 1, .condBr (.other 0) 1 2, 0⟩),
    (1, ⟨"", 2, .br 2, 0⟩)])
    ⟨"", 3, .ret none, 0⟩

def M : Module where
  inst := inst
  func _ := { name := "main", blocks := [⟨0, [0]⟩, ⟨1, [1]⟩, ⟨2, [2]⟩] }
  functions := [0]
  globals := []
  annotations := []

def env : Env := { Env.straightLine with PDT := fun _ => .ifThen }

/-- Every path to an exit ends in block 2. -/
theorem exit_mem {A E : BlockId} {bs : List BlockId} (hA : A ∈ M.blockIds 0)
    (hE : M.succs 0 E = []) (hp : Path (M.succs 0) A E bs) : 2 ∈ bs := by
  have hexits : ∀ E ∈ M.blockIds 0, M.succs 0 E = [] → E = 2 := by decide
  have hEm : E ∈ M.blockIds 0 := Module.path_mem (by decide) hA hp
  exact hexits E hEm hE ▸ hp.end_mem

/-- Block 2 is reached from the others in one step. -/
theorem path_exit {A : BlockId} (hA : A ∈ [0, 1]) : Path (M.succs 0) A 2 [A, 2] := by
  have hstep : ∀ A ∈ [0, 1], 2 ∈ M.succs 0 A := by decide
  exact .cons (hstep A hA) (.refl 2)

theorem postDominates_iff {A B : BlockId} (hA : A ∈ [0, 1]) :
    PostDominates (M.succs 0) B A ↔ B = A ∨ B = 2 := by
  have hmem : ∀ A ∈ [0, 1], A ∈ M.blockIds 0 := by decide
  constructor
  · intro h
    simpa using h 2 _ (by decide) (path_exit hA)
  · rintro (rfl | rfl)
    · exact .refl _ B
    · intro E bs hE hp
      exact exit_mem (hmem A hA) hE hp

theorem postDominates_exit {B : BlockId} : PostDominates (M.succs 0) B 2 ↔ B = 2 := by
  constructor
  · intro h
    simpa using h 2 _ (by decide) (.refl 2)
  · rintro rfl
    exact .refl _ 2

theorem reachesExit : ∀ A ∈ M.blockIds 0, ReachesExit (M.succs 0) A := by
  intro A hA
  by_cases h2 : A = 2
  · subst h2
    exact ⟨2, [2], by decide, .refl 2⟩
  · have hmem : A ∈ [0, 1] := by
      revert A
      decide
    exact ⟨2, _, by decide, path_exit hmem⟩

theorem correct : (env.PDT 0).Correct (M.succs 0) (M.blockIds 0) where
  node_iff := by
    intro A hA
    have hnode : ∀ A ∈ M.blockIds 0, ((env.PDT 0).getNode A).isSome := by decide
    exact iff_of_true (Option.isSome_iff_exists.mp (hnode A hA)) (reachesExit A hA)
  chain_iff := by
    intro A hA n hn B
    by_cases h2 : A = 2
    · subst h2
      cases hn
      simp [DomTreeNode.chain, DomTreeNode.getBlock, postDominates_exit, eq_comm]
    · have hmem : A ∈ [0, 1] ∧ (env.PDT 0).getNode A = some (.node A (.root (some 2))) := by
        clear hn
        revert A
        decide
      rw [hmem.2] at hn
      cases hn
      simp [DomTreeNode.chain, DomTreeNode.getBlock, postDominates_iff hmem.1, eq_comm]
  root_eq := by
    intro A n hn
    have hroot : ∀ A ∈ [2, 0, 1], ∀ n ∈ (env.PDT 0).getNode A, n.getRoot = .root (some 2) := by
      decide
    refine hroot A ?_ n hn
    by_contra hA
    simp only [List.mem_cons, List.not_mem_nil, or_false, not_or] at hA
    simp [env, PostDominatorTree.ifThen, PostDominatorTree.star, hA, Ne.symm hA.1] at hn

end IfThen

open IfThen in
/-- The branch controls the body of an if-then, not what follows it. -/
theorem built_cdg_exact_ifThen :
    CdgLinked (built M env) 0 1 ∧ ¬ CdgLinked (built M env) 0 2 := by
  have hF : (0 : FuncId) ∈ M.functions := by decide
  have h := (built_cdg_exact hF reachesExit correct).1 0 (by decide) 0 (by decide)
  refine ⟨(h.1 1 (by decide) (by decide)).1 ?_ 1 (by decide),
    (h.1 2 (by decide) (by decide)).2 ?_ 2 (by decide)⟩
  · exact ⟨1, by decide, .refl _ 1, fun h => by simpa using (postDominates_iff (by decide)).mp h⟩
  · intro hx
    obtain ⟨S, _, _, h⟩ := hx
    exact h ((postDominates_iff (by decide)).mpr (.inr rfl))

end PDG
end DepTaint
