import DepTaint.ModuleLoop
import DepTaint.PropagationRun

/-!
# Seeds

The state in which the worklist loop starts after the PDG of a module has been built.

* `IsSeed`: the annotated instructions, and the globals annotated "tainted".
* `Started`: what `start` leaves, in terms of the module.
* `runOnModule_ok`: the stages of a run that does not fault.
-/

namespace DepTaint

namespace Module

variable (M : Module)

/-- A `var_annotation` call of the module annotates the instruction `I`. -/
def Annotated (I : InstId) : Prop := ∃ f ∈ M.functions, ∃ i ∈ M.insts f, .inst I ∈ M.annotates i

instance (I : InstId) : Decidable (M.Annotated I) :=
  inferInstanceAs (Decidable (∃ f ∈ M.functions, ∃ i ∈ M.insts f, _))

/-- No annotated value is a call; the compiler annotates local variables. -/
def AnnotatesNoCall : Prop :=
  ∀ f ∈ M.functions, ∀ i ∈ M.insts f, M.Annotated i → (M.kind i).isCall = false

instance : Decidable M.AnnotatesNoCall :=
  inferInstanceAs (Decidable (∀ f ∈ M.functions, ∀ i ∈ M.insts f, _))

/-- The nodes the propagation starts from. -/
def IsSeed : Node → Prop
  | .inst I => M.Annotated I
  | .entry _ => False
  | .global g => g ∈ PDG.senGlobalSet M

variable {M}

theorem mem_of_annotatedValues {f : FuncId} (hf : f ∈ M.functions) {args : List Value} {I : InstId}
    (hargs : ∀ j, .inst j ∈ args → j ∈ M.insts f) (h : .inst I ∈ annotatedValues M args) :
    I ∈ M.insts f := by
  cases args with
  | nil => cases h
  | cons v args =>
    cases v with
    | inst j =>
      have hj := hargs j (by simp)
      simp only [annotatedValues] at h
      split at h
      · exact (M.operands_ok f hf j hj _ h).1
      · rw [List.mem_singleton] at h
        cases h
        exact hj
    | global _ | func _ | other _ => simp [annotatedValues] at h

/-- An annotated instruction belongs to the function that annotates it. -/
theorem mem_of_annotates {f : FuncId} (hf : f ∈ M.functions) {i I : InstId} (hi : i ∈ M.insts f)
    (h : .inst I ∈ M.annotates i) : I ∈ M.insts f := by
  unfold annotates at h
  split at h
  · rename_i g args _ hk
    split at h
    · exact mem_of_annotatedValues hf
        (fun j hj => (M.operands_ok f hf i hi (.inst j) (by simp [hk, Kind.operands, hj])).1) h
    · cases h
  · cases h

theorem Annotated.hasInst {I : InstId} (h : M.Annotated I) : M.HasInst (M.parent I) I := by
  obtain ⟨f, hf, i, hi, hI⟩ := h
  have hmem := mem_of_annotates hf hi hI
  rw [HasInst.parent ⟨hf, hmem⟩]
  exact ⟨hf, hmem⟩

theorem AnnotatesNoCall.isCall (h : M.AnnotatesNoCall) {I : InstId} (hI : M.Annotated I) :
    (M.kind I).isCall = false :=
  h _ hI.hasInst.1 I hI.hasInst.2 hI

/-- An annotated value is an operand, so it is no instruction of void type. -/
theorem Annotated.not_void {I : InstId} (h : M.Annotated I) : (M.kind I).isVoid = false := by
  obtain ⟨f, hf, i, hi, hI⟩ := h
  unfold annotates at hI
  split at hI
  · rename_i g args _ hk
    split at hI
    · cases args with
      | nil => cases hI
      | cons v args =>
        cases v with
        | inst j =>
          have hj := M.operands_ok f hf i hi (.inst j) (by simp [hk, Kind.operands])
          simp only [annotatedValues] at hI
          split at hI
          · exact (M.operands_ok f hf j hj.1 _ hI).2
          · rw [List.mem_singleton] at hI
            cases hI
            exact hj.2
        | global _ | func _ | other _ => simp [annotatedValues] at hI
    · cases hI
  · cases hI

end Module

namespace PDG

section Stages

variable {M : Module} {env : Env}

/-- What `start` leaves after the construction. -/
structure Started (M : Module) (s : State) (p : PropState) (senFuncSet : List FuncId) : Prop where
  pdg : p.pdg = s.pdg
  flag : ∀ w, p.flag w = false
  colored : ∀ w, p.coloredInstSet w = false
  queue : ∀ a w, Rep s.reg a w → (w ∈ p.queue ↔ M.IsSeed a)
  queue_mem : ∀ w ∈ p.queue, w ∈ s.reg.nodes
  taint : ∀ I, p.taintMap I = if M.Annotated I then some {M.name I} else none
  func_isSome : ∀ f, (p.funcMap f).isSome = (s.funcMap f).isSome
  recorded : ∀ f q, recorded p.funcMap f q =
    if f = M.parent q ∧ M.Annotated q then some (M.line q) else recorded s.funcMap f q
  senFuncSet : ∀ f, f ∈ senFuncSet ↔ ∃ I, M.Annotated I ∧ M.parent I = f

theorem mem_sensitiveNodesOf {vs : List Value} {w w' : InstructionWrapper} :
    w' ∈ sensitiveNodesOf M vs w ↔ w' = w ∧ ((∃ I, w.inst = some I ∧ .inst I ∈ vs) ∨
      (w.type = .globalValue ∧ ∃ g, w.value = some (.global g) ∧ g ∈ senGlobalSet M)) := by
  unfold sensitiveNodesOf
  have h1 : (w' ∈ ((vs.filter fun v => w.inst.map Value.inst = some v).map fun _ => w)) ↔
      w' = w ∧ ∃ I, w.inst = some I ∧ .inst I ∈ vs := by
    simp only [List.mem_map, List.mem_filter, decide_eq_true_eq, Option.map_eq_some_iff]
    constructor
    · rintro ⟨v, ⟨hv, I, hI, rfl⟩, rfl⟩
      exact ⟨rfl, I, hI, hv⟩
    · rintro ⟨rfl, I, hI, hv⟩
      exact ⟨_, ⟨hv, I, hI, rfl⟩, rfl⟩
  rw [List.mem_append, h1, and_or_left]
  refine or_congr_right ?_
  split
  · rename_i ht
    cases hv : w.value with
    | none => simp
    | some v =>
      cases v with
      | global g =>
        by_cases hg : g ∈ senGlobalSet M <;> simp [ht, hg]
      | _ => simp
  · rename_i ht
    simp [ht]

/-- What the loop over `sensitive_values` keeps, once it has seen the values in `pre`. -/
structure Seeded (M : Module) (s : State) (pre : List Value) (sd : Seeds) : Prop where
  insts : ∀ v ∈ pre, ∃ I, v = .inst I
  taint : ∀ I, sd.taintMap I = if .inst I ∈ pre then some {M.name I} else none
  func_isSome : ∀ f, (sd.funcMap f).isSome = (s.funcMap f).isSome
  recorded : ∀ f q, recorded sd.funcMap f q =
    if f = M.parent q ∧ .inst q ∈ pre then some (M.line q) else recorded s.funcMap f q
  senFuncSet : ∀ f, f ∈ sd.senFuncSet ↔ ∃ I, .inst I ∈ pre ∧ M.parent I = f

theorem Seeded.step {s : State} {pre : List Value} {sd sd' : Seeds} {v : Value}
    (h : Seeded M s pre sd) (hv : seedValue M sd v = .ok sd') : Seeded M s (pre ++ [v]) sd' := by
  cases v with
  | inst I =>
    obtain ⟨fw, hfw, hs'⟩ := bind_eq_ok.mp hv
    rw [FuncMap.get_eq_ok] at hfw
    cases hs'
    refine ⟨fun v hv => ?_, fun J => ?_, fun f => (isSome_set hfw).trans (h.func_isSome f),
      fun f q => ?_, fun f => ?_⟩
    · rcases List.mem_append.mp hv with hv | hv
      · exact h.insts v hv
      · exact ⟨I, List.mem_singleton.mp hv⟩
    · dsimp only
      rw [Function.update_apply, h.taint, h.taint]
      by_cases hJ : J = I
      · subst hJ
        by_cases hp : .inst J ∈ pre <;> simp [hp]
      · simp [hJ]
    · dsimp only
      rw [recorded_entry hfw fun q => SortedMap.find?_insert ..]
      by_cases hq : q = I
      · subst hq
        by_cases hf : f = M.parent q
        · simp [hf]
        · simp [hf, h.recorded]
      · simp [hq, h.recorded]
    · simp only [mem_setInsert, h.senFuncSet, List.mem_append, List.mem_singleton,
        Value.inst.injEq]
      constructor
      · rintro (rfl | ⟨J, hJ, rfl⟩)
        · exact ⟨I, .inr rfl, rfl⟩
        · exact ⟨J, .inl hJ, rfl⟩
      · rintro ⟨J, hJ | rfl, rfl⟩
        · exact .inr ⟨J, hJ, rfl⟩
        · exact .inl rfl
  | global _ | func _ | other _ => cases hv

theorem start_spec {s : State} {p : PropState} {senFuncSet : List FuncId}
    (h : Built M env s M.functions) (hs : start M .fresh s = .ok (p, senFuncSet)) :
    Started M s p senFuncSet := by
  obtain ⟨sd, hsd, hp⟩ := bind_eq_ok.mp hs
  cases hp
  have hseeded : Seeded M s s.sensitiveValues sd := by
    suffices hgen : ∀ post pre sd0, Seeded M s pre sd0 →
        post.foldlM (seedValue M) sd0 = .ok sd → Seeded M s (pre ++ post) sd from by
      have h0 : Seeded M s [] ⟨Statics.fresh.taintMap, s.funcMap, []⟩ :=
        ⟨by simp, by simp [Statics.fresh], by simp, by simp, by simp⟩
      simpa using hgen s.sensitiveValues [] _ h0 hsd
    intro post
    induction post with
    | nil =>
      intro pre sd0 h0 hf
      cases hf
      simpa using h0
    | cons v post ih =>
      intro pre sd0 h0 hf
      rw [List.foldlM_cons] at hf
      obtain ⟨sd1, h1, h2⟩ := bind_eq_ok.mp hf
      simpa using ih (pre ++ [v]) sd1 (h0.step h1) h2
  have hann : ∀ I, .inst I ∈ s.sensitiveValues ↔ M.Annotated I := fun I => h.sensitiveValues _
  have hqueue : ∀ w, w ∈ findSensitiveNodes M s.sensitiveValues s.reg.nodes ↔ w ∈ s.reg.nodes ∧
      ((∃ I, w.inst = some I ∧ M.Annotated I) ∨
        (w.type = .globalValue ∧ ∃ g, w.value = some (.global g) ∧ g ∈ senGlobalSet M)) := by
    intro w
    simp only [findSensitiveNodes, List.mem_flatMap, mem_sensitiveNodesOf, hann]
    constructor
    · rintro ⟨_, hn, rfl, hc⟩
      exact ⟨hn, hc⟩
    · rintro ⟨hn, hc⟩
      exact ⟨w, hn, rfl, hc⟩
  refine
    { pdg := rfl
      flag := fun _ => rfl
      colored := fun _ => rfl
      queue := ?_
      queue_mem := ?_
      taint := by simpa only [hann] using hseeded.taint
      func_isSome := hseeded.func_isSome
      recorded := by simpa only [hann] using hseeded.recorded
      senFuncSet := by simpa only [hann] using hseeded.senFuncSet }
  · intro a w hw
    have hn := hw.mem_nodes h.graphs.inv
    simp only [Statics.fresh, List.nil_append, hqueue, hn, true_and]
    cases a with
    | inst I =>
      have hi := hw.isInst h.graphs.inv
      simp [hi.inst, hi.type, Module.IsSeed]
    | entry f =>
      have he := hw.isEntry h.graphs.inv
      simp [he.inst, he.type, Module.IsSeed]
    | global g =>
      have hg := hw.isGlobal h.graphs.inv
      simp [hg.inst, hg.type, hg.value, Module.IsSeed]
  · intro w hw
    simp only [Statics.fresh, List.nil_append, hqueue] at hw
    exact hw.1

/-- The entries the construction leaves in the alloca maps. -/
theorem Built.recorded {s : State} (h : Built M env s M.functions) {f : FuncId}
    (hf : f ∈ M.functions) {q : InstId} :
    recorded s.funcMap f q = if Collects M f q then some allocaMAX else none := by
  unfold PDG.recorded
  by_cases hdecl : (M.func f).isDeclaration = true
  · rw [h.graphs.todo f hf (.inr hdecl), if_neg]
    · rfl
    · rintro ⟨hq, _⟩
      simp [insts_of_declaration hdecl] at hq
  · rw [Bool.not_eq_true] at hdecl
    obtain ⟨fw, _, hfw, hcoll, _⟩ := (h.graphs.processed f hf hdecl).wrapper
    rw [hfw]
    refine Option.ext fun v => ?_
    rw [Option.bind_some, hcoll.allocas]
    split
    · rename_i hc
      simp [hc, eq_comm]
    · rename_i hc
      simp [hc]

section Start

variable {s : State} {p : PropState} {senFuncSet : List FuncId}

theorem Started.startable (h : Started M s p senFuncSet) : Startable p := ⟨h.flag, h.colored⟩

/-- The seeds are the wrappers of annotated instructions and globals. -/
theorem Started.seed_cases (h : Started M s p senFuncSet) (hb : Built M env s M.functions)
    {w : InstructionWrapper} (hw : w ∈ p.queue) :
    ∃ a, Rep s.reg a w ∧ M.IsSeed a := by
  obtain ⟨a, ha⟩ := exists_rep hb.graphs.inv (h.queue_mem w hw)
  exact ⟨a, ha, (h.queue a w ha).mp hw⟩

theorem Started.seedsColored (h : Started M s p senFuncSet) (hb : Built M env s M.functions)
    (hcall : M.AnnotatesNoCall) : SeedsColored M p := by
  intro w hw
  obtain ⟨a, ha, hs⟩ := h.seed_cases hb hw
  cases a with
  | inst I => simp [colors, (ha.isInst hb.graphs.inv).value, hcall.isCall hs]
  | entry f => cases hs
  | global g => simp [colors, (ha.isGlobal hb.graphs.inv).value]

end Start

/-- The followed links of the finished PDG. -/
theorem follows_edge {s : State} (hb : Built M env s M.functions) {a : Node}
    {W adj : InstructionWrapper} (ha : Rep s.reg a W) : adj ∈ follows s.pdg W ↔
      ∃ b t, Rep s.reg b adj ∧ t ≠ DependencyType.call.toInt ∧ Edge M env a b t := by
  rw [mem_follows]
  constructor
  · rintro ⟨t, ht, hl⟩
    obtain ⟨_, _, _, _, ⟨b, w', hb', he⟩ | ⟨he, _⟩⟩ := hb.pdg_link_cases hl
    · cases he
      exact ⟨b, t, hb', ht, (hb.pdg_iff ha hb').mp hl⟩
    · exact absurd he.symm (env.garbage_ne adj)
  · rintro ⟨b, t, hb', ht, he⟩
    exact ⟨t, ht, (hb.pdg_iff ha hb').mpr he⟩

/-- Nothing is enqueued from the wrapper of a global. -/
theorem Visit.not_global {s : State} {p : PropState} (hb : Built M env s M.functions)
    {reg : Registry} {s1 s2 : PropState} {W adj : InstructionWrapper} {I : InstId}
    (hv : Visit M reg p s1 W adj I)
    (he : Enqueued M W adj I s1 s2) {g : GlobalId} : ¬ Rep s.reg (.global g) W := by
  intro hg
  have hW := hg.isGlobal hb.graphs.inv
  obtain ⟨i, hi⟩ := he.source (hv.colored (.inr (by simp [colors, hW.value])))
  rw [hW.inst] at hi
  cases hi

/-- The stages of a run that does not fault; the worklist loop starts in `p`. -/
structure Ran (M : Module) (env : Env) (p : PropState) (r : Result) : Prop where
  built : Built M env r.built M.functions
  started : Started M r.built p r.senFuncSet
  sensitiveNodes : r.sensitiveNodes = p.queue
  run : propagate M r.built.reg (iterations r.built.reg p) p = .ok r.final
  report : report M r.final.funcMap r.senFuncSet = .ok r.taintValuesFile

theorem runOnModule_ok {r : Result} (h : runOnModule M env .fresh = .ok r) :
    ∃ p, Ran M env p r := by
  obtain ⟨s, hs, h⟩ := bind_eq_ok.mp h
  obtain ⟨⟨p, senFuncSet⟩, hp, h⟩ := bind_eq_ok.mp h
  obtain ⟨final, hfinal, h⟩ := bind_eq_ok.mp h
  obtain ⟨file, hfile, h⟩ := bind_eq_ok.mp h
  cases h
  have hb : Built M env s M.functions := by
    have he : build M env .fresh = .ok s := hs
    rw [build_eq] at he
    cases he
    exact built_spec M env
  exact ⟨p, hb, start_spec hb hp, rfl, hfinal, hfile⟩

end Stages

/-! ## A copy of an annotated variable -/

namespace Copy

def inst (i : InstId) : Instruction :=
  Option.getD (List.lookup i [
    (0, ⟨"a", 1, .alloca (.other 1), 0⟩),
    (1, ⟨"q", 2, .alloca (.other 1), 0⟩),
    (2, ⟨"a1", 3, .bitcast (.inst 0), 0⟩),
    (3, ⟨"", 3, .call (.func 1) [.inst 2] false, 0⟩),
    (4, ⟨"t", 5, .load (.inst 0), 0⟩),
    (5, ⟨"", 5, .store (.inst 4) (.inst 1), 0⟩)])
    ⟨"", 9, .ret none, 0⟩

def M : Module where
  inst := inst
  func f := Option.getD (List.lookup f [
    (0, { name := "main", blocks := [⟨0, [0, 1, 2, 3, 4, 5, 6]⟩] })]) Function.varAnnotation
  functions := [0, 1]
  globals := []
  annotations := []

def env : Env :=
  { Env.straightLine with AA := fun L S => if L = 4 ∧ S = 5 then .noAlias else .mayAlias }

end Copy

example : (runOnModule Copy.M Copy.env .fresh).map Result.taintValuesFile =
    .ok [(0, [(1, ["a"]), (2, ["a"]), (3, ["a"]), (5, ["a", "q"]), (9, ["a", "q"])])] := by
  decide +kernel

end PDG
end DepTaint
