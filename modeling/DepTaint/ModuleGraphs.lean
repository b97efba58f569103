import DepTaint.Dependences

/-!
# ModuleGraphs

The registries, the DDG and the CDG while the module loop runs. `Graphs` says what they hold once
the functions in `done` are processed.

* `FuncEdge.hasNode`: the links a function adds lead to nodes of functions processed by then.
* `graphs_spec`: what the registration and the two graph passes do for one function.
* `Graphs.step`: they keep the invariant.
-/

namespace DepTaint
namespace PDG

/-- `p` is kept in the alloca map of `f`. -/
def Collects (M : Module) (f : FuncId) (p : InstId) : Prop :=
  p ∈ M.insts f ∧ (M.kind p).isAlloca = true ∧ hasRetval (M.name p) = false

instance (M : Module) (f : FuncId) (p : InstId) : Decidable (Collects M f p) :=
  inferInstanceAs (Decidable (_ ∧ _ ∧ _))

/-- The instruction loop has run over `f`. -/
structure Collected (M : Module) (f : FuncId) (fw : FunctionWrapper) : Prop where
  returns : ∀ r, r ∈ fw.returnInstList ↔ r ∈ M.insts f ∧ ∃ v, M.kind r = .ret v
  allocas : ∀ p v, fw.allocaMap.find? p = some v ↔ v = allocaMAX ∧ Collects M f p

/-- `f` has a body and is processed. -/
structure Done (M : Module) (reg : Registry) (funcMap : FuncMap) (f : FuncId) : Prop where
  registered : reg.Registered M f
  root_unique : ∀ w w', Rep reg (.entry f) w → Rep reg (.entry f) w' → w = w'
  wrapper : ∃ fw root, funcMap f = some fw ∧ Collected M f fw ∧ Rep reg (.entry f) root ∧
    fw.entryW = .to root

/-- What the registries and the two graphs hold once the functions in `done` are processed. -/
structure Graphs (M : Module) (env : Env) (reg : Registry) (funcMap : FuncMap)
    (ddg cdg : DependencyGraph WrapperPtr) (done : List FuncId) : Prop where
  inv : reg.Inv env.heap M
  globals : ∀ g, (∃ w, Rep reg (.global g) w) ↔ g ∈ M.globals
  global_unique : ∀ g w w', Rep reg (.global g) w → Rep reg (.global g) w' → w = w'
  untouched : ∀ f, f ∉ done ∨ (M.func f).isDeclaration = true → reg.funcInstWList f = []
  todo : ∀ f ∈ M.functions, f ∉ done ∨ (M.func f).isDeclaration = true →
    funcMap f = some (.new env.garbage)
  processed : ∀ f ∈ done, (M.func f).isDeclaration = false → Done M reg funcMap f
  funcMap : ∀ f ∈ M.functions, ∃ fw, funcMap f = some fw
  ddg : ∀ p q t, ddg.HasLink p q t ↔ ∃ f ∈ done, DDG.Link M env.AA f reg.instMapAt p q t
  cdg : ∀ p q t, cdg.HasLink p q t ↔ ∃ f ∈ done, ∃ root, Rep reg (.entry f) root ∧
    CDG.Link M (env.PDT f) f root reg.instMapAt p q t

end PDG

/-! ## Nodes of the module -/

namespace Module

variable {M : Module}

/-- `a` belongs to the module, and to a function in `P` if it belongs to one. -/
def HasNode (M : Module) (P : FuncId → Prop) : Node → Prop
  | .inst i => ∃ g, P g ∧ M.HasInst g i
  | .entry g => P g ∧ g ∈ M.functions ∧ (M.func g).isDeclaration = false
  | .global g => g ∈ M.globals

theorem HasNode.mono {P Q : FuncId → Prop} (h : ∀ f, P f → Q f) {a : Node} (ha : M.HasNode P a) :
    M.HasNode Q a := by
  cases a with
  | inst i =>
    obtain ⟨g, hg, hi⟩ := ha
    exact ⟨g, h g hg, hi⟩
  | entry g => exact ⟨h g ha.1, ha.2⟩
  | global g => exact ha

theorem defined_of_mem_insts {f : FuncId} {i : InstId} (h : i ∈ M.insts f) :
    (M.func f).isDeclaration = false := by
  unfold insts Function.insts at h
  unfold Function.isDeclaration
  cases hb : (M.func f).blocks with
  | nil => simp [hb] at h
  | cons B Bs => rfl

theorem Calls.mem_functions {f : FuncId} (hf : f ∈ M.functions) {i : InstId} (hi : i ∈ M.insts f)
    {g : FuncId} (h : M.Calls i g) : g ∈ M.functions := by
  obtain ⟨_, _, args, hk⟩ := h
  exact M.operands_ok f hf i hi (.func g) (by simp [hk, Kind.operands])

theorem ListedUpTo.refl (f : FuncId) : M.ListedUpTo f f := Nat.le_refl _

section Split

variable {done post : List FuncId} {F : FuncId}

theorem notMem_done (hx : M.functions = done ++ F :: post) : F ∉ done := by
  intro h
  have hnd := M.functions_nodup
  rw [hx, List.nodup_append] at hnd
  exact hnd.2.2 F h F (by simp) rfl

/-- The functions listed up to the one being processed are those processed, and itself. -/
theorem listedUpTo_iff (hx : M.functions = done ++ F :: post) {g : FuncId} :
    M.ListedUpTo g F ↔ g ∈ done ∨ g = F := by
  have hF : M.functions.idxOf F = done.length := by
    rw [hx, List.idxOf_append, if_neg (notMem_done hx)]
    simp
  unfold ListedUpTo
  rw [hF, hx, List.idxOf_append]
  split
  · rename_i hg
    have := List.idxOf_lt_length_iff.mpr hg
    simp only [hg, true_or, iff_true]
    omega
  · rename_i hg
    simp only [hg, false_or]
    by_cases he : g = F
    · simp [he]
    · rw [List.idxOf_cons_ne _ (Ne.symm he)]
      simp only [he, iff_false]
      omega

theorem ListedUpTo.mem_done (hx : M.functions = done ++ F :: post) {f g : FuncId} (hf : f ∈ done)
    (h : M.ListedUpTo g f) : g ∈ done := by
  have hlt := List.idxOf_lt_length_iff.mpr hf
  have hle : M.functions.idxOf g ≤ done.idxOf f := by
    have he : M.functions.idxOf f = done.idxOf f := by
      rw [hx, List.idxOf_append, if_pos hf]
    exact he ▸ h
  by_contra hg
  rw [hx, List.idxOf_append, if_neg hg] at hle
  omega

end Split

end Module

namespace PDG

variable {M : Module} {env : Env}

theorem mem_insts_of_edge {f : FuncId} (hf : f ∈ M.functions) {i j : InstId} {t : Int}
    (h : DDG.Edge M env.AA f i j t) : i ∈ M.insts f ∧ j ∈ M.insts f := by
  cases h with
  | raw hj _ hc => exact ⟨(DDG.candidateSI_mem hc).1, hj⟩
  | defUse hj ho => exact ⟨(M.operands_ok f hf j hj _ ho).1, hj⟩

/-- A link leads between nodes of functions listed up to the one being processed. -/
theorem FuncEdge.hasNode {f : FuncId} (hf : f ∈ M.functions) {a b : Node} {t : Int}
    (h : FuncEdge M env f a b t) :
    M.HasNode (M.ListedUpTo · f) a ∧ M.HasNode (M.ListedUpTo · f) b := by
  have hin : ∀ i ∈ M.insts f, M.HasNode (M.ListedUpTo · f) (.inst i) := fun i hi =>
    ⟨f, .refl f, hf, hi⟩
  cases h with
  | callEntry hi hc hl => exact ⟨hin _ hi, hl, hc.mem_functions hf hi, hc.2.1⟩
  | returnCall hi hc hl hr _ => exact ⟨⟨_, hl, hc.mem_functions hf hi, hr⟩, hin _ hi⟩
  | globalLoad hj _ hg => exact ⟨hg, hin _ hj⟩
  | data hd _ =>
    obtain ⟨hi, hj⟩ := mem_insts_of_edge hf hd
    exact ⟨hin _ hi, hin _ hj⟩
  | control hc =>
    obtain ⟨hi, hj⟩ := hc.mem_insts
    exact ⟨hin _ hi, hin _ hj⟩
  | entryControl hc =>
    have hj := hc.mem_insts
    exact ⟨⟨.refl f, hf, Module.defined_of_mem_insts hj⟩, hin _ hj⟩

/-! ## Links between the wrappers of nodes -/

theorem ddgLink_iff {heap : Heap} {reg : Registry} {f : FuncId} {w w' : InstructionWrapper} {t : Int}
    (hinv : reg.Inv heap M) : DDG.Link M env.AA f reg.instMapAt (.to w) (.to w') t ↔
      ∃ i j, Rep reg (.inst i) w ∧ Rep reg (.inst j) w' ∧ DDG.Edge M env.AA f i j t := by
  constructor
  · intro h
    generalize hp : WrapperPtr.to w = p at h
    generalize hq : WrapperPtr.to w' = q at h
    cases h with
    | @raw L hL hload =>
      cases hc : DDG.candidateSI M env.AA f L with
      | none =>
        rw [hc, hinv.instMapAt_none] at hp
        cases hp
      | some S =>
        rw [hc] at hp
        exact ⟨S, L, Registry.instMapAt_eq_to.mp hp.symm, Registry.instMapAt_eq_to.mp hq.symm,
          .raw hL hload hc⟩
    | @defUse j i hj hi =>
      exact ⟨i, j, Registry.instMapAt_eq_to.mp hp.symm, Registry.instMapAt_eq_to.mp hq.symm,
        .defUse hj hi⟩
  · intro hx
    obtain ⟨i, j, hi, hj, h⟩ := hx
    rw [← Registry.instMapAt_eq_to.mpr hi, ← Registry.instMapAt_eq_to.mpr hj]
    cases h with
    | raw hL hload hc => exact hc ▸ .raw hL hload
    | defUse hL ho => exact .defUse hL ho

theorem cdgLink_iff {heap : Heap} {reg : Registry} {f : FuncId} {T : PostDominatorTree}
    {root w w' : InstructionWrapper} {t : Int} (hinv : reg.Inv heap M) :
    CDG.Link M T f root reg.instMapAt (.to w) (.to w') t ↔ ∃ j, Rep reg (.inst j) w' ∧
      ((w = root ∧ CDG.EntryControls M T f j ∧ t = DependencyType.control.toInt) ∨
        ∃ A S i, Rep reg (.inst i) w ∧ M.terminator f A = some i ∧
          CDG.EdgeControls M T f A S j ∧ t = (CDG.getDependenceType M f A S).toInt) := by
  constructor
  · intro h
    generalize hp : WrapperPtr.to w = p at h
    generalize hq : WrapperPtr.to w' = q at h
    cases h with
    | @root j hj =>
      cases hp
      exact ⟨j, Registry.instMapAt_eq_to.mp hq.symm, .inl ⟨rfl, hj, rfl⟩⟩
    | @edge A S j hj =>
      cases ht : M.terminator f A with
      | none =>
        rw [ht, hinv.instMapAt_none] at hp
        cases hp
      | some i =>
        rw [ht] at hp
        exact ⟨j, Registry.instMapAt_eq_to.mp hq.symm,
          .inr ⟨A, S, i, Registry.instMapAt_eq_to.mp hp.symm, ht, hj, rfl⟩⟩
  · intro hx
    obtain ⟨j, hj, ⟨rfl, hc, rfl⟩ | ⟨A, S, i, hi, ht, hc, rfl⟩⟩ := hx
    · rw [← Registry.instMapAt_eq_to.mpr hj]
      exact .root hc
    · rw [← Registry.instMapAt_eq_to.mpr hi, ← Registry.instMapAt_eq_to.mpr hj, ← ht]
      exact .edge hc

section Graphs

variable {reg : Registry} {funcMap : FuncMap} {ddg cdg : DependencyGraph WrapperPtr}
  {done : List FuncId} {a b : Node} {w w' : InstructionWrapper}

/-- The DDG links between the wrappers of two nodes. -/
theorem Graphs.ddg_iff (h : Graphs M env reg funcMap ddg cdg done) (ha : Rep reg a w)
    (hb : Rep reg b w') {t : Int} : ddg.HasLink (.to w) (.to w') t ↔
      ∃ i j, a = .inst i ∧ b = .inst j ∧ ∃ f ∈ done, DDG.Edge M env.AA f i j t := by
  simp only [h.ddg, ddgLink_iff h.inv]
  constructor
  · intro hx
    obtain ⟨f, hf, i, j, hi, hj, hd⟩ := hx
    exact ⟨i, j, ha.node_unique h.inv hi, hb.node_unique h.inv hj, f, hf, hd⟩
  · intro hx
    obtain ⟨i, j, rfl, rfl, f, hf, hd⟩ := hx
    exact ⟨f, hf, i, j, ha, hb, hd⟩

/-- The CDG depends between the wrappers of two nodes. -/
theorem Graphs.cdg_depends_iff (h : Graphs M env reg funcMap ddg cdg done) (ha : Rep reg a w)
    (hb : Rep reg b w') : cdg.depends (.to w) (.to w') = true ↔
      ∃ j, b = .inst j ∧ ∃ f ∈ done,
        (a = .entry f ∧ CDG.EntryControls M (env.PDT f) f j) ∨
          ∃ i, a = .inst i ∧ CDG.Controls M (env.PDT f) f i j := by
  simp only [DependencyGraph.depends_iff, h.cdg, cdgLink_iff h.inv]
  constructor
  · intro hx
    obtain ⟨t, f, hf, root, hroot, j, hj, ⟨rfl, hc, _⟩ | ⟨A, S, i, hi, ht, hc, _⟩⟩ := hx
    · exact ⟨j, hb.node_unique h.inv hj, f, hf, .inl ⟨ha.node_unique h.inv hroot, hc⟩⟩
    · exact ⟨j, hb.node_unique h.inv hj, f, hf,
        .inr ⟨i, ha.node_unique h.inv hi, A, S, hc, ht⟩⟩
  · intro hx
    obtain ⟨j, rfl, f, hf, ⟨rfl, hc⟩ | ⟨i, rfl, A, S, hc, ht⟩⟩ := hx
    · exact ⟨_, f, hf, w, ha, j, hb, .inl ⟨rfl, hc, rfl⟩⟩
    · -- a function whose terminator controls something has a body, so its entry is registered
      have hdef := Module.defined_of_mem_insts hc.mem_insts
      obtain ⟨_, root, _, _, hroot, _⟩ := (h.processed f hf hdef).wrapper
      exact ⟨_, f, hf, root, hroot, j, hb, .inr ⟨A, S, i, ha, ht, hc, rfl⟩⟩

end Graphs

/-! ## The graphs of one function -/

theorem mem_returnInstList_collect {fw : FunctionWrapper} {i r : InstId} :
    r ∈ (collect M fw i).returnInstList ↔
      r ∈ fw.returnInstList ∨ r = i ∧ ∃ v, M.kind i = .ret v := by
  unfold collect
  cases hk : M.kind i with
  | ret v => simp
  | alloca v => by_cases hr : hasRetval (M.name i) = true <;> simp [hr]
  | _ => simp

theorem find?_collect {fw : FunctionWrapper} {i p : InstId} :
    (collect M fw i).allocaMap.find? p =
      if p = i ∧ (M.kind i).isAlloca = true ∧ hasRetval (M.name i) = false then some allocaMAX
      else fw.allocaMap.find? p := by
  unfold collect
  cases hk : M.kind i with
  | alloca v =>
    by_cases hr : hasRetval (M.name i) = true
    · simp [hr]
    · simp [hr, SortedMap.find?_insert, Kind.isAlloca]
  | _ => simp [Kind.isAlloca]

/-- The instruction loop on a new wrapper. -/
theorem collect_spec (f : FuncId) :
    Collected M f ((M.insts f).foldl (collect M) (.new env.garbage)) := by
  have key := foldl_invariant (f := collect M) (l := M.insts f)
    (s := FunctionWrapper.new env.garbage)
    (P := fun pre (fw : FunctionWrapper) =>
      (∀ r, r ∈ fw.returnInstList ↔ r ∈ pre ∧ ∃ v, M.kind r = .ret v) ∧
      ∀ p v, fw.allocaMap.find? p = some v ↔ v = allocaMAX ∧
        p ∈ pre ∧ (M.kind p).isAlloca = true ∧ hasRetval (M.name p) = false)
    (by simp [FunctionWrapper.new]) ?_
  · exact ⟨key.1, key.2⟩
  rintro pre i post fw - ⟨hret, hall⟩
  constructor
  · intro r
    rw [mem_returnInstList_collect, hret, List.mem_append, List.mem_singleton, or_and_right]
    refine or_congr_right (and_congr_right ?_)
    rintro rfl
    rfl
  · intro p v
    rw [find?_collect, List.mem_append, List.mem_singleton]
    by_cases hp : p = i
    · subst hp
      by_cases hc : (M.kind p).isAlloca = true ∧ hasRetval (M.name p) = false
      · rw [if_pos ⟨rfl, hc⟩, Option.some.injEq, eq_comm]
        exact ⟨fun h => ⟨h, .inr rfl, hc⟩, And.left⟩
      · rw [if_neg fun h => hc h.2, hall]
        exact ⟨fun h => absurd h.2.2 hc, fun h => absurd h.2.2 hc⟩
    · rw [if_neg fun h => hp h.1, hall]
      simp [hp]

/-- The loop that sets the entries, when it only meets the entry `computeDependencies` set. -/
theorem setEntry_spec {L : List InstructionWrapper} {funcMap : FuncMap} {F : FuncId}
    {root : InstructionWrapper} {fw : FunctionWrapper} (hfw : funcMap F = some fw)
    (hroot : fw.entryW = .to root) (hL : ∀ w ∈ L, w.type = .entry → w = root ∧ w.func = some F) :
    L.foldl setEntry funcMap = funcMap := by
  refine foldl_preserves (P := fun m => m = funcMap) rfl ?_
  rintro _ w hw rfl
  unfold setEntry
  split
  · rename_i ht
    obtain ⟨rfl, hf⟩ := hL w hw ht
    simp only [hf, hfw]
    have hsame : ({ fw with entryW := .to w } : FunctionWrapper) = fw := by rw [← hroot]
    rw [hsame, FuncMap.set, ← hfw]
    exact Function.update_eq_self F _
  · rfl

/-- Registering the wrappers of `F` and building its two graphs. -/
theorem graphs_spec {s : State} {F : FuncId} (hinv : s.reg.Inv env.heap M) (hF : F ∈ M.functions)
    (hlist : s.reg.funcInstWList F = []) :
    let d := DDG.runOnFunction env.heap M env.AA
      ⟨s.reg.constructInstMap env.heap M F, s.ddg⟩ F
    let fw := (M.insts F).foldl (collect M) (.new env.garbage)
    ∃ c root, CDG.computeDependencies M (env.PDT F) F env.heap
        (CDG.runOnFunction M F env.heap ⟨d.reg, s.funcMap.set F fw, s.cdg⟩) = .ok c ∧
      c.reg.Inv env.heap M ∧ Registry.Grows M F s.reg c.reg ∧ c.reg.Registered M F ∧
      (∀ w, Rep c.reg (.entry F) w ↔ w = root) ∧
      c.funcMap = s.funcMap.set F { fw with entryW := .to root } ∧
      (∀ p q t, d.ddg.HasLink p q t ↔
        s.ddg.HasLink p q t ∨ DDG.Link M env.AA F c.reg.instMapAt p q t) ∧
      ∀ p q t, c.cdg.HasLink p q t ↔
        s.cdg.HasLink p q t ∨ CDG.Link M (env.PDT F) F root c.reg.instMapAt p q t := by
  intro d fw
  obtain ⟨hinv1, hgrow1, hreg1⟩ := Registry.constructInstMap_spec hinv hF
  have hd := DDG.runOnFunction_spec env.AA
    (s := ⟨s.reg.constructInstMap env.heap M F, s.ddg⟩) hinv1 hF
  simp only [Registry.constructInstMap_of_registered hreg1] at hd
  obtain ⟨hsee, hlinks⟩ := hd
  have hregd : d.reg.Registered M F := hsee.grows.registered hreg1
  have hrun : CDG.runOnFunction M F env.heap ⟨d.reg, s.funcMap.set F fw, s.cdg⟩ =
      ⟨d.reg, s.funcMap.set F fw, s.cdg⟩ := by
    simp only [CDG.runOnFunction, Registry.constructInstMap_of_registered hregd]
  rw [hrun]
  obtain ⟨c, hc, hkeep, hcl⟩ := CDG.computeDependencies_spec (T := env.PDT F)
    (s := ⟨d.reg, s.funcMap.set F fw, s.cdg⟩) hsee.inv hregd
    ((s.funcMap.set_apply F F fw).trans (if_pos rfl))
  dsimp only at hkeep hcl
  have hclist : c.reg.funcInstWList = (d.reg.insertEntry F
    (d.reg.entryWrapper env.heap F)).funcInstWList := hkeep.sees.funcInstWList
  have hdlist : d.reg.funcInstWList = (s.reg.constructInstMap env.heap M F).funcInstWList :=
    hsee.funcInstWList
  have hdptr : d.reg.instMapAt = (s.reg.constructInstMap env.heap M F).instMapAt :=
    funext hsee.instMapAt
  have hptr : ∀ k, c.reg.instMapAt k = d.reg.instMapAt k := fun k => hkeep.sees.instMapAt k
  have hroot : ∀ w, Rep c.reg (.entry F) w ↔ w = d.reg.entryWrapper env.heap F := by
    intro w
    rw [Rep, hclist]
    constructor
    · intro h
      obtain ⟨hw, ht⟩ := h
      rcases Registry.mem_update_list.mp hw with ⟨_, rfl⟩ | hw
      · rfl
      · rw [hdlist] at hw
        rcases Registry.constructInstMap_list hw with hw | hi
        · rw [hlist] at hw
          cases hw
        · rw [ht] at hi
          cases hi
    · rintro rfl
      exact ⟨Registry.mem_update_list.mpr (.inl ⟨rfl, rfl⟩), rfl⟩
  refine ⟨c, d.reg.entryWrapper env.heap F, hc, hkeep.sees.inv,
    hgrow1.trans (hsee.grows.trans (Registry.grows_insertEntry.trans hkeep.sees.grows)),
    hkeep.sees.grows.registered hregd, hroot, ?_, fun p q t => ?_, fun p q t => ?_⟩
  · rw [hkeep.funcMap, FuncMap.set, FuncMap.set, FuncMap.set, Function.update_idem]
  · rw [hlinks, funext hptr, hdptr]
  · rw [hcl, funext hptr]

/-! ## One iteration -/

/-- Processing `F` leaves the wrappers of other functions alone. -/
theorem rep_frame {reg reg' : Registry} {F : FuncId} {P : FuncId → Prop} {a : Node}
    {w : InstructionWrapper} (hgrow : Registry.Grows M F reg reg') (hF : F ∈ M.functions)
    (hP : ¬ P F)
    (ha : M.HasNode P a) : Rep reg' a w ↔ Rep reg a w := by
  cases a with
  | inst i =>
    obtain ⟨g, hg, hi⟩ := ha
    have hni : i ∉ M.insts F := by
      intro h
      exact hP (hi.unique ⟨hF, h⟩ ▸ hg)
    simp only [Rep, hgrow.instMap_frame i hni]
  | entry g =>
    have hg : g ≠ F := by
      rintro rfl
      exact hP ha.1
    simp only [Rep, hgrow.list_frame g hg]
  | global g => simp only [Rep, hgrow.global_eq]

theorem instMapAt_frame {heap : Heap} {reg reg' : Registry} {f F : FuncId}
    (hinv : reg.Inv heap M) (hinv' : reg'.Inv heap M) (hgrow : Registry.Grows M F reg reg')
    (hf : f ∈ M.functions) (hF : F ∈ M.functions) (hne : f ≠ F) {k : Option InstId}
    (hk : ∀ i, k = some i → i ∈ M.insts f) : reg.instMapAt k = reg'.instMapAt k := by
  cases k with
  | none => rw [hinv.instMapAt_none, hinv'.instMapAt_none]
  | some i =>
    have hni : i ∉ M.insts F := fun h =>
      hne (Module.HasInst.unique ⟨hf, hk i rfl⟩ ⟨hF, h⟩)
    simp only [Registry.instMapAt, hgrow.instMap_frame i hni]

section Step

variable {reg reg' : Registry} {funcMap : FuncMap} {ddg cdg ddg' cdg' : DependencyGraph WrapperPtr}
  {done post : List FuncId} {F : FuncId} {root : InstructionWrapper} {fw : FunctionWrapper}

theorem mem_functions_of_done (hx : M.functions = done ++ F :: post) {f : FuncId}
    (hf : f ∈ done ++ [F]) : f ∈ M.functions := by
  rw [hx]
  simp only [List.mem_append, List.mem_cons, List.not_mem_nil, or_false] at hf ⊢
  exact hf.imp_right Or.inl

theorem Graphs.step (h : Graphs M env reg funcMap ddg cdg done)
    (hx : M.functions = done ++ F :: post) (hdef : (M.func F).isDeclaration = false)
    (hinv' : reg'.Inv env.heap M) (hgrow : Registry.Grows M F reg reg')
    (hreg : reg'.Registered M F)
    (hroot : ∀ w, Rep reg' (.entry F) w ↔ w = root) (hfw : Collected M F fw)
    (hentry : fw.entryW = .to root)
    (hddg : ∀ p q t, ddg'.HasLink p q t ↔
      ddg.HasLink p q t ∨ DDG.Link M env.AA F reg'.instMapAt p q t)
    (hcdg : ∀ p q t, cdg'.HasLink p q t ↔
      cdg.HasLink p q t ∨ CDG.Link M (env.PDT F) F root reg'.instMapAt p q t) :
    Graphs M env reg' (funcMap.set F fw) ddg' cdg' (done ++ [F]) := by
  have hF : F ∈ M.functions := by simp [hx]
  have hFdone := Module.notMem_done hx
  have hdone : ∀ f ∈ done, f ∈ M.functions ∧ f ≠ F := fun f hf =>
    ⟨by simp [hx, hf], by rintro rfl; exact hFdone hf⟩
  have hne : ∀ f, f ∉ done ++ [F] ∨ (M.func f).isDeclaration = true → f ≠ F := by
    rintro _ hf rfl
    rcases hf with hf | hf
    · simp at hf
    · rw [hdef] at hf
      cases hf
  have hglobal : ∀ g w, Rep reg' (.global g) w ↔ Rep reg (.global g) w := fun g w => by
    simp only [Rep, hgrow.global_eq]
  have hrepentry : ∀ f ∈ done, ∀ w, Rep reg' (.entry f) w ↔ Rep reg (.entry f) w := fun f hf w => by
    simp only [Rep, hgrow.list_frame f (hdone f hf).2]
  have hptr : ∀ f ∈ done, ∀ k, (∀ i, k = some i → i ∈ M.insts f) →
      reg.instMapAt k = reg'.instMapAt k := fun f hf k hk =>
    instMapAt_frame h.inv hinv' hgrow (hdone f hf).1 hF (hdone f hf).2 hk
  exact
    { inv := hinv'
      globals := by simpa only [hglobal] using h.globals
      global_unique := by simpa only [hglobal] using h.global_unique
      untouched := by
        intro f hf
        rw [hgrow.list_frame f (hne f hf)]
        exact h.untouched f (hf.imp_left fun hn hd => hn (List.mem_append_left _ hd))
      todo := by
        intro f hf hnot
        rw [FuncMap.set_apply, if_neg (hne f hnot)]
        exact h.todo f hf (hnot.imp_left fun hn hd => hn (List.mem_append_left _ hd))
      processed := by
        intro f hf hdef
        rcases List.mem_append.mp hf with hf | hf
        · obtain ⟨hr, hu, fw', root', h1, h2, h3, h4⟩ := h.processed f hf hdef
          refine ⟨hgrow.registered hr, fun w w' hw hw' => ?_, fw', root', ?_, h2, ?_, h4⟩
          · rw [hrepentry f hf] at hw hw'
            exact hu w w' hw hw'
          · rw [FuncMap.set_apply, if_neg (hdone f hf).2, h1]
          · rwa [hrepentry f hf]
        · obtain rfl := List.mem_singleton.mp hf
          refine ⟨hreg, fun w w' hw hw' => ?_, fw, root, ?_, hfw, (hroot root).mpr rfl, hentry⟩
          · rw [(hroot w).mp hw, (hroot w').mp hw']
          · rw [FuncMap.set_apply, if_pos rfl]
      funcMap := by
        intro f hf
        rw [FuncMap.set_apply]
        split
        · exact ⟨fw, rfl⟩
        · exact h.funcMap f hf
      ddg := by
        intro p q t
        rw [hddg, h.ddg]
        simp only [List.mem_append, List.mem_singleton, or_and_right, exists_or, exists_eq_left]
        refine or_congr_left ⟨?_, ?_⟩
        · intro hex
          obtain ⟨f, hf, hl⟩ := hex
          exact ⟨f, hf, hl.congr (hdone f hf).1 (hptr f hf)⟩
        · intro hex
          obtain ⟨f, hf, hl⟩ := hex
          exact ⟨f, hf, hl.congr (hdone f hf).1 fun k hk => (hptr f hf k hk).symm⟩
      cdg := by
        intro p q t
        rw [hcdg, h.cdg]
        simp only [List.mem_append, List.mem_singleton, or_and_right, exists_or, exists_eq_left,
          hroot]
        refine or_congr_left ⟨?_, ?_⟩
        · intro hex
          obtain ⟨f, hf, w, hw, hl⟩ := hex
          exact ⟨f, hf, w, (hrepentry f hf w).mpr hw, hl.congr (hptr f hf)⟩
        · intro hex
          obtain ⟨f, hf, w, hw, hl⟩ := hex
          exact ⟨f, hf, w, (hrepentry f hf w).mp hw, hl.congr fun k hk => (hptr f hf k hk).symm⟩ }

end Step

end PDG
end DepTaint
