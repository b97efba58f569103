import Mathlib.Logic.Relation
import DepTaint.ControlDependence

/-!
# ControlLinks

What the control dependence links mean on a function whose blocks all reach an exit, when its
post-dominator tree is correct.

* `entry_reaches`: the links lead from the ENTRY wrapper to every instruction of a block that
  control can reach.
* `control_labels`: the type of a link from a conditional branch names the side that decides the
  target.
-/

namespace DepTaint

section Paths

variable {succs : BlockId → List BlockId}

/-- A path from outside `P` into `P` enters it by an edge; the way to that edge is shorter. -/
theorem Path.exists_enter {P : BlockId → Prop} {A B : BlockId} {bs : List BlockId}
    (hp : Path succs A B bs) (hA : ¬ P A) (hB : P B) :
    ∃ C S cs, Path succs A C cs ∧ cs.length < bs.length ∧ S ∈ succs C ∧ ¬ P C ∧ P S := by
  induction hp with
  | refl => exact absurd hB hA
  | @cons A S B bs hS hp ih =>
    by_cases hPS : P S
    · refine ⟨A, S, [A], .refl A, ?_, hS, hA, hPS⟩
      have := List.length_pos_of_mem hp.start_mem
      simpa using this
    · obtain ⟨C, D, cs, hc, hlen, hD, hC, hPD⟩ := ih hPS hB
      exact ⟨C, D, A :: cs, .cons hS hc, by simpa using hlen, hD, hC, hPD⟩

/-- A block that post-dominates all successors of `A` post-dominates `A`, unless `A` is an exit. -/
theorem PostDominates.of_succs {A B : BlockId} (hne : succs A ≠ [])
    (h : ∀ S ∈ succs A, PostDominates succs B S) : PostDominates succs B A := by
  intro E bs hE hp
  cases hp with
  | refl => exact absurd hE hne
  | cons hS hp => exact List.mem_cons_of_mem _ (h _ hS E _ hE hp)

end Paths

namespace PDG

section Chains

variable {M : Module} {env : Env} {F : FuncId}

/-- The links from a terminator to an instruction, by the edges that decide its block. -/
theorem cdg_label_iff (hF : F ∈ M.functions)
    (hexit : ∀ A ∈ M.blockIds F, ReachesExit (M.succs F) A)
    (hT : (env.PDT F).Correct (M.succs F) (M.blockIds F)) {A B : BlockId} {i j : InstId}
    (hA : A ∈ M.blockIds F) (hi : M.terminator F A = some i) (hj : j ∈ M.blockInsts F B)
    {w w' : InstructionWrapper} (hw : Rep (built M env).reg (.inst i) w)
    (hw' : Rep (built M env).reg (.inst j) w') {t : Int} :
    (built M env).cdg.HasLink (.to w) (.to w') t ↔ ∃ S ∈ M.succs F A,
      (PostDominates (M.succs F) B S ∧ ¬ PostDominates (M.succs F) B A) ∧
        t = (CDG.getDependenceType M F A S).toInt := by
  have hb := built_spec M env
  have hsucc : ∀ S ∈ M.succs F A, S ∈ M.blockIds F := fun S => Module.succs_mem hF
  have hiF := CDG.mem_insts_of_terminator hi
  obtain ⟨nA, hnA⟩ := (hT.node_iff A hA).mpr (hexit A hA)
  simp only [hb.graphs.cdg, cdgLink_iff hb.graphs.inv]
  constructor
  · intro h
    obtain ⟨f, hf, root, hroot, j', hj', ⟨rfl, _, _⟩ | ⟨A', S, i', hi', ht, hE, rfl⟩⟩ := h
    · cases hw.node_unique hb.graphs.inv hroot
    · cases hw.node_unique hb.graphs.inv hi'
      cases hw'.node_unique hb.graphs.inv hj'
      have hif := CDG.mem_insts_of_terminator ht
      obtain rfl := Module.HasInst.unique ⟨hf, hif⟩ ⟨hF, hiF⟩
      obtain rfl := CDG.block_unique hF (List.mem_of_getLast? hi) (List.mem_of_getLast? ht)
      obtain ⟨hmem, nA', nS, hnA', hnS, m, hm, hmA, C, hC, hjC⟩ := hE
      rw [hnA] at hnA'
      cases hnA'
      obtain rfl := CDG.block_unique hF hj hjC
      obtain ⟨_, hS, _⟩ := CDG.mem_edgeSet.mp hmem
      exact ⟨S, hS, (hT.walk_iff hA (hsucc S hS) hnA hnS).mp ⟨m, hm, hmA, hC⟩, rfl⟩
  · intro h
    obtain ⟨S, hS, ⟨hBS, hBA⟩, rfl⟩ := h
    obtain ⟨nS, hnS⟩ := (hT.node_iff S (hsucc S hS)).mpr (hexit S (hsucc S hS))
    obtain ⟨m, hm, hmA, hmB⟩ := (hT.walk_iff hA (hsucc S hS) hnA hnS).mpr ⟨hBS, hBA⟩
    obtain ⟨_, root, _, _, hroot, _⟩ :=
      (hb.graphs.processed F hF (Module.defined_of_mem_insts hiF)).wrapper
    refine ⟨F, hF, root, hroot, j, hw', .inr ⟨A, S, i, hw, hi, ⟨?_, nA, nS, hnA, hnS, m, hm, hmA, B,
      hmB, hj⟩, rfl⟩⟩
    exact CDG.mem_edgeSet.mpr ⟨hA, hS, hT.not_dominates hA (hsucc S hS) hnA hnS hBS hBA⟩

/-! ## Chains from the ENTRY wrapper -/

/-- The CDG has a link of some type. -/
def CdgStep (s : State) (p q : WrapperPtr) : Prop := s.cdg.depends p q = true

/-- Every instruction of a block on a path from the entry block hangs off the ENTRY wrapper by CDG
links, and none by a link from the terminator of its own block. -/
theorem entry_reaches (hF : F ∈ M.functions)
    (hexit : ∀ A ∈ M.blockIds F, ReachesExit (M.succs F) A)
    (hT : (env.PDT F).Correct (M.succs F) (M.blockIds F)) {E : BlockId}
    (hE : M.entryBlock F = some E) {root : InstructionWrapper}
    (hroot : Rep (built M env).reg (.entry F) root) {B : BlockId} {bs : List BlockId}
    (hp : Path (M.succs F) E B bs) {j : InstId} (hj : j ∈ M.blockInsts F B) :
    ∃ w, Rep (built M env).reg (.inst j) w ∧
      Relation.TransGen (CdgStep (built M env)) (.to root) (.to w) ∧
      ∀ i, M.terminator F B = some i → ¬ CdgLinked (built M env) i j := by
  have hb := built_spec M env
  have hEm : E ∈ M.blockIds F := List.mem_of_head? hE
  have hrep : ∀ {C : BlockId} {k : InstId}, k ∈ M.blockInsts F C →
      ∃ w, Rep (built M env).reg (.inst k) w := fun hk =>
    hb.exists_rep ⟨F, trivial, hF, CDG.mem_insts_of_block hk⟩
  -- on the length of the path: the edge that decides the block starts nearer to the entry
  have main : ∀ n (B : BlockId) (bs : List BlockId), bs.length < n → Path (M.succs F) E B bs →
      ∀ j ∈ M.blockInsts F B, ∀ w, Rep (built M env).reg (.inst j) w →
        Relation.TransGen (CdgStep (built M env)) (.to root) (.to w) := by
    intro n
    induction n with
    | zero =>
      intro B bs hlt
      cases hlt
    | succ n ih =>
      intro B bs hlt hp j hj w hw
      by_cases hBE : PostDominates (M.succs F) B E
      · refine .single ((cdg_entry_iff hroot).mpr ⟨j, w, ?_, hw, rfl⟩)
        exact (CDG.entryControls_iff hT hexit).mpr ⟨E, B, hE, hBE, hj⟩
      · obtain ⟨A, S, as, hpA, hlen, hS, hBA, hBS⟩ :=
          hp.exists_enter (P := PostDominates (M.succs F) B) hBE (.refl _ B)
        have hA : A ∈ M.blockIds F := Module.path_mem hF hEm hpA
        obtain ⟨i, hi⟩ := Module.terminator_of_succ hS
        have hiA : i ∈ M.blockInsts F A := List.mem_of_getLast? hi
        obtain ⟨u, hu⟩ := hrep hiA
        have hlink := (cdg_label_iff hF hexit hT hA hi hj hu hw).mpr ⟨S, hS, ⟨hBS, hBA⟩, rfl⟩
        exact .tail (ih A as (by omega) hpA i hiA u hu)
          (DependencyGraph.depends_iff.mpr ⟨_, hlink⟩)
  obtain ⟨w, hw⟩ := hrep hj
  refine ⟨w, hw, main _ B bs (Nat.lt_succ_self _) hp j hj w hw, fun i hi => ?_⟩
  intro h
  obtain ⟨u, w', hu, hw', hd⟩ := h
  obtain ⟨t, hl⟩ := DependencyGraph.depends_iff.mp hd
  obtain ⟨S, _, ⟨_, hBB⟩, _⟩ :=
    (cdg_label_iff hF hexit hT (CDG.mem_blockIds_of_mem hj) hi hj hu hw').mp hl
  exact hBB (.refl _ B)

end Chains

open IfThen in
theorem entry_reaches_ifThen : ∃ root w, Rep (built M env).reg (.entry 0) root ∧
    Rep (built M env).reg (.inst 1) w ∧
    Relation.TransGen (CdgStep (built M env)) (.to root) (.to w) := by
  have hF : (0 : FuncId) ∈ M.functions := by decide
  obtain ⟨root, hroot⟩ :=
    (built_spec M env).exists_rep (a := .entry 0) ⟨trivial, hF, by decide⟩
  have hp : Path (M.succs 0) 0 1 [0, 1] := .cons (by decide) (.refl 1)
  obtain ⟨w, hw, hreach, _⟩ :=
    entry_reaches hF reachesExit correct (E := 0) rfl hroot hp (j := 1) (by decide)
  exact ⟨root, w, hroot, hw, hreach⟩

/-! ## The types of the links -/

/-- The links from the terminator of `A`, a conditional branch to `succ0` and `succ1`, to an
instruction of `B`. -/
structure Labelled (succs : BlockId → List BlockId) (A B succ0 succ1 : BlockId)
    (cdg : DependencyGraph WrapperPtr) (p q : WrapperPtr) : Prop where
  unique : (cdg.linksBetween p q).length ≤ 1
  true_iff : cdg.HasLink p q ControlType.TRUE.toInt ↔
    PostDominates succs B succ0 ∧ ¬ PostDominates succs B A
  false_iff : cdg.HasLink p q ControlType.FALSE.toInt ↔
    PostDominates succs B succ1 ∧ ¬ PostDominates succs B A
  types : ∀ t, cdg.HasLink p q t → t = ControlType.TRUE.toInt ∨ t = ControlType.FALSE.toInt
  not_other : ¬ cdg.HasLink p q ControlType.OTHER.toInt
  getControlType_true : PostDominates succs B succ0 → ¬ PostDominates succs B A →
    cdg.getControlType p q = some ControlType.TRUE.toInt
  getControlType_false : PostDominates succs B succ1 → ¬ PostDominates succs B A →
    cdg.getControlType p q = some ControlType.FALSE.toInt

section Labels

variable {M : Module} {env : Env} {F : FuncId}

/-- Links with the labels of the two sides, when no block is decided by both. -/
theorem Labelled.of_iff {succs : BlockId → List BlockId} {A B succ0 succ1 : BlockId}
    {cdg : DependencyGraph WrapperPtr} {p q : WrapperPtr} (hA : succs A = [succ0, succ1])
    (h : ∀ t, cdg.HasLink p q t ↔
      (PostDominates succs B succ0 ∧ ¬ PostDominates succs B A) ∧ t = ControlType.TRUE.toInt ∨
      (PostDominates succs B succ1 ∧ ¬ PostDominates succs B A) ∧
        t = (if succ0 = succ1 then ControlType.TRUE else .FALSE).toInt) :
    Labelled succs A B succ0 succ1 cdg p q := by
  have hboth : PostDominates succs B succ0 → PostDominates succs B succ1 →
      PostDominates succs B A := by
    intro h0 h1
    refine .of_succs (by simp [hA]) fun S hS => ?_
    rw [hA] at hS
    rcases List.mem_cons.mp hS with rfl | hS
    · exact h0
    · exact List.mem_singleton.mp hS ▸ h1
  have h' : ∀ t, cdg.HasLink p q t ↔
      (PostDominates succs B succ0 ∧ ¬ PostDominates succs B A) ∧ t = ControlType.TRUE.toInt ∨
      (PostDominates succs B succ1 ∧ ¬ PostDominates succs B A) ∧
        t = ControlType.FALSE.toInt := by
    intro t
    rw [h]
    by_cases he : succ0 = succ1
    · subst he
      have hno : ¬ (PostDominates succs B succ0 ∧ ¬ PostDominates succs B A) := by
        intro hx
        obtain ⟨h0, hBA⟩ := hx
        exact hBA (hboth h0 h0)
      simp [hno]
    · rw [if_neg he]
  have hne : ControlType.TRUE.toInt ≠ ControlType.FALSE.toInt := by decide
  have huniq : ∀ t t', cdg.HasLink p q t → cdg.HasLink p q t' → t = t' := by
    intro t t' ht ht'
    rcases (h' t).mp ht with ⟨⟨h0, hBA⟩, rfl⟩ | ⟨⟨h1, hBA⟩, rfl⟩ <;>
      rcases (h' t').mp ht' with ⟨⟨h0', _⟩, rfl⟩ | ⟨⟨h1', _⟩, rfl⟩
    · rfl
    · exact absurd (hboth h0 h1') hBA
    · exact absurd (hboth h0' h1) hBA
    · rfl
  have htrue : cdg.HasLink p q ControlType.TRUE.toInt ↔
      PostDominates succs B succ0 ∧ ¬ PostDominates succs B A := by
    simp [h', hne]
  have hfalse : cdg.HasLink p q ControlType.FALSE.toInt ↔
      PostDominates succs B succ1 ∧ ¬ PostDominates succs B A := by
    simp [h', hne.symm]
  have htypes : ∀ t, cdg.HasLink p q t →
      t = ControlType.TRUE.toInt ∨ t = ControlType.FALSE.toInt := by
    intro t ht
    rcases (h' t).mp ht with ⟨_, rfl⟩ | ⟨_, rfl⟩
    · exact .inl rfl
    · exact .inr rfl
  refine ⟨DependencyGraph.length_linksBetween_le_one huniq, htrue, hfalse, htypes, fun ho => ?_,
    fun h0 hBA => ?_, fun h1 hBA => ?_⟩
  · exact absurd (htypes _ ho) (by decide)
  · have hl := htrue.mpr ⟨h0, hBA⟩
    exact DependencyGraph.getControlType_of_hasLink hl fun t ht => huniq _ _ ht hl
  · have hl := hfalse.mpr ⟨h1, hBA⟩
    exact DependencyGraph.getControlType_of_hasLink hl fun t ht => huniq _ _ ht hl

/-- The links from a conditional branch to another block are labelled with the side that decides
the block; the links from any other terminator are labelled `OTHER`. -/
theorem control_labels (hF : F ∈ M.functions)
    (hexit : ∀ A ∈ M.blockIds F, ReachesExit (M.succs F) A)
    (hT : (env.PDT F).Correct (M.succs F) (M.blockIds F)) {A : BlockId} {i : InstId}
    (hA : A ∈ M.blockIds F) (hi : M.terminator F A = some i) {w : InstructionWrapper}
    (hw : Rep (built M env).reg (.inst i) w) :
    (∀ c succ0 succ1, M.kind i = .condBr c succ0 succ1 → ∀ B, B ≠ A → ∀ j ∈ M.blockInsts F B,
      ∀ w', Rep (built M env).reg (.inst j) w' →
        Labelled (M.succs F) A B succ0 succ1 (built M env).cdg (.to w) (.to w')) ∧
    ((∀ c succ0 succ1, M.kind i ≠ .condBr c succ0 succ1) → ∀ q t,
      (built M env).cdg.HasLink (.to w) q t → t = ControlType.OTHER.toInt) := by
  constructor
  · intro c succ0 succ1 hk B _ j hj w' hw'
    have hsucc : M.succs F A = [succ0, succ1] := by
      simp [Module.succs, hi, hk, Kind.successors]
    refine .of_iff hsucc fun t => ?_
    rw [cdg_label_iff hF hexit hT hA hi hj hw hw', hsucc]
    simp [CDG.getDependenceType, hi, hk]
  · intro hk q t hl
    obtain ⟨j, w', hw', rfl⟩ := cdg_target (DependencyGraph.depends_iff.mpr ⟨t, hl⟩)
    have hb := built_spec M env
    obtain ⟨f, _, root, hroot, j', _, ⟨rfl, _, _⟩ | ⟨A', S, i', hi', ht, _, rfl⟩⟩ := by
      simpa only [hb.graphs.cdg, cdgLink_iff hb.graphs.inv] using hl
    · cases hw.node_unique hb.graphs.inv hroot
    · cases hw.node_unique hb.graphs.inv hi'
      rw [CDG.getDependenceType_of_ne ht hk]

end Labels

open IfThen in
/-- The branch of an if-then controls its body from the true side. -/
theorem control_labels_ifThen : ∃ w w', Rep (built M env).reg (.inst 0) w ∧
    Rep (built M env).reg (.inst 1) w' ∧
    (built M env).cdg.getControlType (.to w) (.to w') = some ControlType.TRUE.toInt := by
  have hb := built_spec M env
  have hF : (0 : FuncId) ∈ M.functions := by decide
  obtain ⟨w, hw⟩ := hb.exists_rep (a := .inst 0) ⟨0, trivial, hF, by decide⟩
  obtain ⟨w', hw'⟩ := hb.exists_rep (a := .inst 1) ⟨0, trivial, hF, by decide⟩
  have h := (control_labels hF reachesExit correct (A := 0) (by decide) rfl hw).1 _ 1 2 rfl 1
    (by decide) 1 (by decide) w' hw'
  refine ⟨w, w', hw, hw', h.getControlType_true (.refl _ 1) fun hBA => ?_⟩
  simpa using (postDominates_iff (by decide)).mp hBA

end PDG
end DepTaint
