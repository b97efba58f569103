import DepTaint.ModuleLoop

/-!
# GraphMerge

The finished PDG against the two graphs it merges.

* `Faithful`: the PDG has the control and data links from `u` to `v` that the CDG and the DDG have.
* `faithful_iff`: it does, unless the outer loop executed `continue` for `u` and `v` uses its value.
-/

namespace DepTaint
namespace PDG

/-- The PDG has exactly the control and data links of the two graphs from `u` to `v`. -/
structure Faithful (M : Module) (s : State) (u v : InstructionWrapper) : Prop where
  control : s.pdg.HasLink (.to u) (.to v) DependencyType.control.toInt ↔
    s.cdg.depends (.to u) (.to v) = true
  raw : u.type = .inst → (s.pdg.HasLink (.to u) (.to v) DependencyType.dataRaw.toInt ↔
    s.ddg.depends (.to u) (.to v) = true ∧ u.isa M Kind.isStore = true ∧ v.isa M Kind.isLoad = true)
  defUse : u.type = .inst → (s.pdg.HasLink (.to u) (.to v) DependencyType.dataDefUse.toInt ↔
    s.ddg.depends (.to u) (.to v) = true ∧
      ¬ (u.isa M Kind.isStore = true ∧ v.isa M Kind.isLoad = true))

section Merge

variable {M : Module} {env : Env} {s : State} {F : FuncId} {i j : InstId}
  {a : Node} {u v : InstructionWrapper}

/-- The control links between instructions. -/
theorem edge_control_iff : Edge M env (.inst i) (.inst j) DependencyType.control.toInt ↔
    ∃ f ∈ M.functions, CDG.Controls M (env.PDT f) f i j := by
  constructor
  · intro hx
    obtain ⟨f, hf, h⟩ := hx
    generalize ht : DependencyType.control.toInt = t at h
    cases h with
    | returnCall => cases ht
    | data =>
      unfold Module.dataType at ht
      split at ht <;> cases ht
    | control hc => exact ⟨f, hf, hc⟩
  · intro hx
    obtain ⟨f, hf, hc⟩ := hx
    exact ⟨f, hf, .control hc⟩

/-- The control links from the entry of a function. -/
theorem edge_entry_iff : Edge M env (.entry F) (.inst j) DependencyType.control.toInt ↔
    F ∈ M.functions ∧ CDG.EntryControls M (env.PDT F) F j := by
  constructor
  · intro hx
    obtain ⟨f, hf, h⟩ := hx
    cases h with
    | entryControl hc => exact ⟨hf, hc⟩
  · intro hx
    obtain ⟨hF, hc⟩ := hx
    exact ⟨F, hF, .entryControl hc⟩

/-- The data links between instructions, by type. -/
theorem edge_data_iff {d : DependencyType} (hd : d = .dataRaw ∨ d = .dataDefUse) :
    Edge M env (.inst i) (.inst j) d.toInt ↔
      (∃ f ∈ M.functions, ∃ t, DDG.Edge M env.AA f i j t) ∧ M.earlyExit i = false ∧
        M.dataType i j = d := by
  have hinj : ∀ {x : DependencyType}, x.toInt = d.toInt → x = d := by
    intro x
    rcases hd with rfl | rfl <;> cases x <;> simp [DependencyType.toInt]
  constructor
  · intro hx
    obtain ⟨f, hf, h⟩ := hx
    generalize ht : d.toInt = t at h
    cases h with
    | returnCall => rcases hd with rfl | rfl <;> cases ht
    | @data _ _ t' hedge hexit => exact ⟨⟨f, hf, t', hedge⟩, hexit, hinj ht.symm⟩
    | control => rcases hd with rfl | rfl <;> cases ht
  · intro hx
    obtain ⟨⟨f, hf, t, h⟩, hexit, rfl⟩ := hx
    exact ⟨f, hf, .data h hexit⟩

theorem not_store_of_earlyExit (h : M.earlyExit i = true) : (M.kind i).isStore = false := by
  unfold Module.earlyExit at h
  split at h
  · rename_i hk
    rw [hk]
    rfl
  · cases h

/-- What depends on the result of a skipped call are its users. -/
theorem edge_of_earlyExit (hF : F ∈ M.functions) (hj : j ∈ M.insts F) (h : M.earlyExit i = true) :
    (∃ f ∈ M.functions, ∃ t, DDG.Edge M env.AA f i j t) ↔ .inst i ∈ (M.kind j).operands := by
  constructor
  · intro hx
    obtain ⟨f, _, t, hedge⟩ := hx
    cases hedge with
    | raw _ _ hc =>
      have hst := (DDG.candidateSI_mem hc).2
      rw [not_store_of_earlyExit h] at hst
      cases hst
    | defUse _ ho => exact ho
  · intro ho
    exact ⟨F, hF, _, .defUse hj ho⟩

theorem ddg_depends_iff (h : Built M env s M.functions) (hu : Rep s.reg (.inst i) u)
    (hv : Rep s.reg (.inst j) v) : s.ddg.depends (.to u) (.to v) = true ↔
      ∃ f ∈ M.functions, ∃ t, DDG.Edge M env.AA f i j t := by
  rw [DependencyGraph.depends_iff]
  simp only [h.graphs.ddg_iff hu hv]
  constructor
  · intro hx
    obtain ⟨t, i', j', hi, hj, f, hf, he⟩ := hx
    cases hi
    cases hj
    exact ⟨f, hf, t, he⟩
  · intro hx
    obtain ⟨f, hf, t, he⟩ := hx
    exact ⟨t, i, j, rfl, rfl, f, hf, he⟩

/-- The control links are those of the CDG. -/
theorem pdg_control_iff (h : Built M env s M.functions)
    (hu : (∃ i, Rep s.reg (.inst i) u) ∨ Rep s.reg (.entry F) u) (hv : Rep s.reg (.inst j) v) :
    s.pdg.HasLink (.to u) (.to v) DependencyType.control.toInt ↔
      s.cdg.depends (.to u) (.to v) = true := by
  rcases hu with ⟨i, hu⟩ | hu
  · rw [h.pdg_iff hu hv, h.graphs.cdg_depends_iff hu hv, edge_control_iff]
    constructor
    · intro hx
      obtain ⟨f, hf, hc⟩ := hx
      exact ⟨j, rfl, f, hf, .inr ⟨i, rfl, hc⟩⟩
    · intro hx
      obtain ⟨j', hj, f, hf, ⟨he, _⟩ | ⟨i', hi, hc⟩⟩ := hx
      · cases he
      · cases hi
        cases hj
        exact ⟨f, hf, hc⟩
  · rw [h.pdg_iff hu hv, h.graphs.cdg_depends_iff hu hv, edge_entry_iff]
    constructor
    · intro hx
      obtain ⟨hF, hc⟩ := hx
      exact ⟨j, rfl, F, hF, .inl ⟨rfl, hc⟩⟩
    · intro hx
      obtain ⟨j', hj, f, hf, ⟨he, hc⟩ | ⟨i', hi, _⟩⟩ := hx
      · cases he
        cases hj
        exact ⟨hf, hc⟩
      · cases hi

/-- The data links of one type between two instruction wrappers. -/
theorem pdg_data_iff (h : Built M env s M.functions) (hu : Rep s.reg (.inst i) u)
    (hv : Rep s.reg (.inst j) v) {d : DependencyType} (hd : d = .dataRaw ∨ d = .dataDefUse) :
    s.pdg.HasLink (.to u) (.to v) d.toInt ↔
      s.ddg.depends (.to u) (.to v) = true ∧ M.earlyExit i = false ∧ M.dataType i j = d := by
  rw [h.pdg_iff hu hv, edge_data_iff hd, ddg_depends_iff h hu hv]

/-- The PDG is faithful on every pair of a function's wrappers, except that a call for which the
outer loop executes `continue` loses the links to the users of its result. -/
theorem faithful_iff (hF : F ∈ M.functions) (hu : u ∈ (built M env).reg.funcInstWList F)
    (hv : v ∈ (built M env).reg.funcInstWList F) (hvt : v.type = .inst) :
    Faithful M (built M env) u v ↔ ¬ ∃ i j, u.inst = some i ∧ v.inst = some j ∧
      M.earlyExit i = true ∧ .inst i ∈ (M.kind j).operands := by
  have hb := built_spec M env
  have hinv := hb.graphs.inv
  obtain ⟨j, hj, hvj⟩ : ∃ j ∈ M.insts F, Rep (built M env).reg (.inst j) v := by
    rcases mem_list_cases hinv hv with h | h
    · exact h
    · cases hvt.symm.trans h.2
  rcases mem_list_cases hinv hu with ⟨i, hi, hui⟩ | hue
  · have hii := hui.isInst hinv
    have hjj := hvj.isInst hinv
    have hst : u.isa M Kind.isStore = (M.kind i).isStore := by
      simp [InstructionWrapper.isa, hii.inst]
    have hld : v.isa M Kind.isLoad = (M.kind j).isLoad := by
      simp [InstructionWrapper.isa, hjj.inst]
    have hraw : M.dataType i j = .dataRaw ↔ u.isa M Kind.isStore = true ∧
        v.isa M Kind.isLoad = true := by
      rw [hst, hld, Module.dataType]
      split <;> simp_all
    have hdef : M.dataType i j = .dataDefUse ↔ ¬ (u.isa M Kind.isStore = true ∧
        v.isa M Kind.isLoad = true) := by
      rw [← hraw, Module.dataType]
      split <;> simp
    have hctrl := pdg_control_iff (F := F) hb (.inl ⟨i, hui⟩) hvj
    have hR := pdg_data_iff hb hui hvj (.inl rfl)
    have hD := pdg_data_iff hb hui hvj (.inr rfl)
    rw [hraw] at hR
    rw [hdef] at hD
    have hdep := ddg_depends_iff hb hui hvj
    cases hexit : M.earlyExit i with
    | false =>
      refine iff_of_true ⟨hctrl, fun _ => ?_, fun _ => ?_⟩ ?_
      · simpa [hexit] using hR
      · simpa [hexit] using hD
      · intro hx
        obtain ⟨i', _, hi', _, he, _⟩ := hx
        rw [hii.inst] at hi'
        cases hi'
        rw [hexit] at he
        cases he
    | true =>
      have hns := not_store_of_earlyExit hexit
      rw [edge_of_earlyExit hF hj hexit] at hdep
      constructor
      · intro hfaith hx
        obtain ⟨i', j', hi', hj', _, ho⟩ := hx
        rw [hii.inst] at hi'
        rw [hjj.inst] at hj'
        cases hi'
        cases hj'
        have hlink := (hfaith.defUse hii.type).mpr ⟨hdep.mpr ho, by simp [hst, hns]⟩
        have := (hD.mp hlink).2.1
        rw [hexit] at this
        cases this
      · intro hno
        have hnd : ¬ (built M env).ddg.depends (.to u) (.to v) = true := fun hd =>
          hno ⟨i, j, hii.inst, hjj.inst, hexit, hdep.mp hd⟩
        refine ⟨hctrl, fun _ => ?_, fun _ => ?_⟩
        · simp [hR, hnd]
        · simp [hD, hnd]
  · have hee := hue.isEntry hinv
    have hne : ¬ u.type = .inst := by simp [hee.type]
    refine iff_of_true ⟨pdg_control_iff hb (.inr hue) hvj, fun h => absurd h hne,
      fun h => absurd h hne⟩ ?_
    intro hx
    obtain ⟨i, _, hi, _⟩ := hx
    rw [hee.inst] at hi
    cases hi

end Merge

/-! ## A call of a declared function -/

namespace Malloc

def inst (i : InstId) : Instruction :=
  Option.getD (List.lookup i [
    (0, ⟨"p", 1, .alloca (.other 0), 0⟩),
    (1, ⟨"call", 2, .call (.func 1) [.other 8] false, 0⟩),
    (2, ⟨"", 2, .store (.inst 1) (.inst 0), 0⟩)])
    ⟨"", 3, .ret none, 0⟩

def M : Module where
  inst := inst
  func f := Option.getD (List.lookup f [
    (0, { name := "main", blocks := [⟨0, [0, 1, 2, 3]⟩] })]) { name := "malloc", blocks := [] }
  functions := [0, 1]
  globals := []
  annotations := []

end Malloc

open Malloc in
/-- The DDG links the call to the store of its result, the PDG does not. -/
theorem malloc_not_faithful :
    ∃ u ∈ (built M .straightLine).reg.funcInstWList 0,
      ∃ v ∈ (built M .straightLine).reg.funcInstWList 0, u.inst = some 1 ∧ v.inst = some 2 ∧
        v.type = .inst ∧ (built M .straightLine).ddg.depends (.to u) (.to v) = true ∧
        ¬ Faithful M (built M .straightLine) u v := by
  have hrun : ∃ u ∈ (built M .straightLine).reg.funcInstWList 0,
      ∃ v ∈ (built M .straightLine).reg.funcInstWList 0, u.inst = some 1 ∧ v.inst = some 2 ∧
        u.type = .inst ∧ v.type = .inst ∧
        (built M .straightLine).ddg.depends (.to u) (.to v) = true ∧
        ¬ (built M .straightLine).pdg.HasLink (.to u) (.to v)
          DependencyType.dataDefUse.toInt := by
    decide
  obtain ⟨u, hu, v, hv, hi, hj, hut, hvt, hd, hl⟩ := hrun
  refine ⟨u, hu, v, hv, hi, hj, hvt, hd, fun h => hl ((h.defUse hut).mpr ⟨hd, ?_⟩)⟩
  intro hx
  obtain ⟨hst, _⟩ := hx
  rw [InstructionWrapper.isa, hi] at hst
  exact absurd hst (by decide)

open Malloc in
theorem faithful_iff_alloca :
    ∃ u ∈ (built M .straightLine).reg.funcInstWList 0,
      ∃ v ∈ (built M .straightLine).reg.funcInstWList 0, u.inst = some 0 ∧ v.inst = some 2 ∧
        Faithful M (built M .straightLine) u v := by
  have hb := built_spec M .straightLine
  obtain ⟨u, hu⟩ := hb.exists_rep (a := .inst 0) ⟨0, trivial, by decide⟩
  obtain ⟨v, hv⟩ := hb.exists_rep (a := .inst 2) ⟨0, trivial, by decide⟩
  have hi := hu.isInst hb.graphs.inv
  have hj := hv.isInst hb.graphs.inv
  refine ⟨u, (Rep.mem_list hb.graphs.inv hu).2, v, (Rep.mem_list hb.graphs.inv hv).2, hi.inst,
    hj.inst, (faithful_iff (F := 0) (by decide) (Rep.mem_list hb.graphs.inv hu).2
      (Rep.mem_list hb.graphs.inv hv).2 hj.type).mpr ?_⟩
  intro h
  obtain ⟨i, j, hi', _, he, _⟩ := h
  rw [hi.inst] at hi'
  cases hi'
  revert he
  decide

end PDG
end DepTaint
