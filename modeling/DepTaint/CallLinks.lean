import DepTaint.ModuleLoop

/-!
# CallLinks

The links between the functions of a module in the finished PDG.

* `Connected`: a call is linked to the ENTRY wrapper of its callee and to its value returns, and to
  registered wrappers only.
* `connected_iff`: a direct call is connected exactly if its callee is listed up to the caller.
-/

namespace DepTaint
namespace PDG

/-- The PDG connects the call `i` to its callee `g`. -/
structure Connected (M : Module) (s : State) (i : InstId) (g : FuncId) : Prop where
  entry : ∃ w root, Rep s.reg (.inst i) w ∧ Rep s.reg (.entry g) root ∧
    s.pdg.HasLink (.to w) (.to root) DependencyType.dataGeneral.toInt
  returns : ∀ r ∈ M.insts g, (∃ v, M.kind r = .ret (some v)) → ∃ w w', Rep s.reg (.inst r) w ∧
    Rep s.reg (.inst i) w' ∧ s.pdg.HasLink (.to w) (.to w') DependencyType.dataGeneral.toInt
  registered : ∀ w, Rep s.reg (.inst i) w → ∀ q t, s.pdg.HasLink (.to w) q t →
    ∃ w' ∈ s.reg.nodes, q = .to w'

section Calls

variable {M : Module} {env : Env} {F g : FuncId} {i r : InstId}

/-- The links from an instruction to the entry of a function. -/
theorem edge_callEntry_iff (hF : F ∈ M.functions) (hi : i ∈ M.insts F) {t : Int} :
    Edge M env (.inst i) (.entry g) t ↔
      M.Calls i g ∧ M.ListedUpTo g F ∧ t = DependencyType.dataGeneral.toInt := by
  constructor
  · rintro ⟨f, hf, h⟩
    cases h with
    | callEntry hi' hc hl =>
      obtain rfl := Module.HasInst.unique ⟨hf, hi'⟩ ⟨hF, hi⟩
      exact ⟨hc, hl, rfl⟩
  · rintro ⟨hc, hl, rfl⟩
    exact ⟨F, hF, .callEntry hi hc hl⟩

/-- The PDG connects a direct call that is not marked `tail` to its callee if and only if the callee
is the caller or listed before it. -/
theorem connected_iff (hF : F ∈ M.functions) (hi : i ∈ M.insts F) (hc : M.Calls i g) :
    Connected M (built M env) i g ↔ M.ListedUpTo g F := by
  have hb := built_spec M env
  have hg := hc.mem_functions hF hi
  constructor
  · intro h
    obtain ⟨w, root, hw, hroot, hl⟩ := h.entry
    exact ((edge_callEntry_iff hF hi).mp ((hb.pdg_iff hw hroot).mp hl)).2.1
  · intro hl
    obtain ⟨w, hw⟩ := hb.exists_rep (a := .inst i) ⟨F, trivial, hF, hi⟩
    obtain ⟨root, hroot⟩ := hb.exists_rep (a := .entry g) ⟨trivial, hg, hc.2.1⟩
    refine ⟨⟨w, root, hw, hroot, (hb.pdg_iff hw hroot).mpr ⟨F, hF, .callEntry hi hc hl⟩⟩, ?_, ?_⟩
    · rintro r hr ⟨v, hv⟩
      obtain ⟨w', hw'⟩ := hb.exists_rep (a := .inst r) ⟨g, trivial, hg, hr⟩
      exact ⟨w', w, hw', hw, (hb.pdg_iff hw' hw).mpr ⟨F, hF, .returnCall hi hc hl hr hv⟩⟩
    · intro w' hw' q t hq
      obtain ⟨a, x, ha, hx, ⟨b, y, hy, rfl⟩ | ⟨_, f, hf, i', hi', rfl, g', hc', hn⟩⟩ :=
        hb.pdg_link_cases hq
      · exact ⟨y, hy.mem_nodes hb.graphs.inv, rfl⟩
      · -- what the entry held before it was set is linked to calls of later functions only
        cases hx
        cases hw'.node_unique hb.graphs.inv ha
        obtain rfl := Module.HasInst.unique ⟨hf, hi'⟩ ⟨hF, hi⟩
        obtain rfl := hc.unique hc'
        exact absurd hl hn

end Calls

/-! ## A caller and its callee -/

namespace CallerFirst

def inst (i : InstId) : Instruction :=
  Option.getD (List.lookup i [
    (0, ⟨"call", 5, .call (.func 1) [] false, 0⟩),
    (1, ⟨"", 6, .ret none, 0⟩)])
    ⟨"", 2, .ret (some (.other 1)), 1⟩

def func (f : FuncId) : Function :=
  Option.getD (List.lookup f [(0, { name := "main", blocks := [⟨0, [0, 1]⟩] })])
    { name := "get", blocks := [⟨0, [2]⟩] }

def M : Module where
  inst := inst
  func := func
  functions := [0, 1]
  globals := []
  annotations := []

/-- The same functions in the other order. -/
def calleeFirst : Module where
  inst := inst
  func := func
  functions := [1, 0]
  globals := []
  annotations := []

end CallerFirst

open CallerFirst in
/-- In a caller that is listed first, the call is not connected. -/
theorem callerFirst_not_connected : M.Calls 0 1 ∧ ¬ Connected M (built M .straightLine) 0 1 := by
  refine ⟨⟨rfl, rfl, [], rfl⟩, fun h => ?_⟩
  have hb := built_spec M .straightLine
  obtain ⟨w, root, hw, hroot, hl⟩ := h.entry
  have hrun : ∀ w ∈ (built M .straightLine).reg.funcInstWList 0,
      ∀ root ∈ (built M .straightLine).reg.funcInstWList 1,
      ¬ (built M .straightLine).pdg.HasLink (.to w) (.to root)
        DependencyType.dataGeneral.toInt := by
    decide
  exact hrun w (hw.mem_list hb.graphs.inv).2 root hroot.1 hl

open CallerFirst in
theorem connected_iff_calleeFirst :
    Connected calleeFirst (built calleeFirst .straightLine) 0 1 :=
  (connected_iff (F := 0) (by decide) (by decide) ⟨rfl, rfl, [], rfl⟩).mpr (by decide)

end PDG
end DepTaint
