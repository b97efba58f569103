import DepTaint.ModuleLoop

/-!
# NearestStore

The store the DDG links a load to, against the nearest store in source lines.

* `NearestLinked`: the one RAW link of a load comes from the first of the nearest stores that may
  alias it.
* `nearestLinked_iff`: it does exactly if one of these stores is less than `maxLocNum` lines away.
-/

namespace DepTaint

namespace Module

/-- `S` is a store of `F` that may alias the load `L`. -/
def MayStore (M : Module) (AA : AliasOracle) (F : FuncId) (L S : InstId) : Prop :=
  S ∈ M.insts F ∧ (M.kind S).isStore = true ∧ AA L S ≠ .noAlias

end Module

namespace PDG

section

variable (M : Module) (env : Env) (s : State) (F : FuncId) (L : InstId)

/-- Exactly one RAW link leads to the wrapper of `L`. It comes from the wrapper of a store that may
alias `L`; no other such store is nearer, and none in front of it is as near. -/
def NearestLinked : Prop :=
  ∃ S w w', Rep s.reg (.inst S) w ∧ Rep s.reg (.inst L) w' ∧
    (∀ p, (s.ddg.linksFrom p).count (.to w', DependencyType.dataRaw.toInt) =
      if p = .to w then 1 else 0) ∧
    M.MayStore env.AA F L S ∧
    ∃ pre post, M.insts F = pre ++ S :: post ∧
      (∀ S' ∈ pre, M.MayStore env.AA F L S' → DDG.lineDist M L S < DDG.lineDist M L S') ∧
      ∀ S' ∈ post, M.MayStore env.AA F L S' → DDG.lineDist M L S ≤ DDG.lineDist M L S'

end

section Nearest

variable {M : Module} {env : Env} {F : FuncId} {L : InstId}

/-- The filters of `getDependencyInFunction` in one. -/
theorem getDependencyInFunction_eq (AA : AliasOracle) :
    DDG.getDependencyInFunction M AA F L =
      (M.insts F).filter fun S => (M.kind S).isStore && decide (AA L S ≠ .noAlias) := by
  rw [DDG.getDependencyInFunction, List.filter_filter]
  exact List.filter_congr fun S _ => Bool.and_comm ..

/-- Where the links into a load come from. -/
theorem ddg_raw_iff (hF : F ∈ M.functions) (hL : L ∈ M.insts F)
    (hload : (M.kind L).isLoad = true) {w : InstructionWrapper}
    (hw : Rep (built M env).reg (.inst L) w) (p : WrapperPtr) :
    (built M env).ddg.HasLink p (.to w) DependencyType.dataRaw.toInt ↔
      p = (built M env).reg.instMapAt (DDG.candidateSI M env.AA F L) := by
  have hb := built_spec M env
  have hptr := Registry.instMapAt_eq_to.mpr hw
  rw [hb.graphs.ddg]
  constructor
  · intro hx
    obtain ⟨f, hf, h⟩ := hx
    generalize hq : WrapperPtr.to w = q at h
    generalize ht : DependencyType.dataRaw.toInt = t at h
    cases h with
    | @raw L' hL' _ =>
      -- the target's wrapper names the load, and the load its function
      obtain rfl : L = L' := by
        have hw' : Rep (built M env).reg (.inst L') w := Registry.instMapAt_eq_to.mp hq.symm
        cases hw.node_unique hb.graphs.inv hw'
        rfl
      rw [Module.HasInst.unique ⟨hf, hL'⟩ ⟨hF, hL⟩]
    | defUse => cases ht
  · rintro rfl
    rw [← hptr]
    exact ⟨F, hF, .raw hL hload⟩

/-- The filtered and the unfiltered form of the choice. -/
theorem candidateSI_eq_some_iff {S : InstId} : DDG.candidateSI M env.AA F L = some S ↔
    DDG.lineDist M L S < DDG.maxLocNum ∧ M.MayStore env.AA F L S ∧
    ∃ pre post, M.insts F = pre ++ S :: post ∧
      (∀ S' ∈ pre, M.MayStore env.AA F L S' → DDG.lineDist M L S < DDG.lineDist M L S') ∧
      ∀ S' ∈ post, M.MayStore env.AA F L S' → DDG.lineDist M L S ≤ DDG.lineDist M L S' := by
  rw [DDG.candidateSI_eq_some, getDependencyInFunction_eq, isFirstMin_filter]
  simp only [Bool.and_eq_true, decide_eq_true_eq]
  refine and_congr_right fun _ => ?_
  constructor
  · intro hex
    obtain ⟨⟨hs, ha⟩, pre, post, hx, hpre, hpost⟩ := hex
    exact ⟨⟨by simp [hx], hs, ha⟩, pre, post, hx, fun S' h hS' => hpre S' h hS'.2,
      fun S' h hS' => hpost S' h hS'.2⟩
  · intro hex
    obtain ⟨⟨_, hs, ha⟩, pre, post, hx, hpre, hpost⟩ := hex
    exact ⟨⟨hs, ha⟩, pre, post, hx, fun S' h hS' => hpre S' h ⟨by simp [hx, h], hS'⟩,
      fun S' h hS' => hpost S' h ⟨by simp [hx, h], hS'⟩⟩

/-- A load that some store of its function may alias has the one RAW link from the nearest of them
exactly if one is less than `maxLocNum` lines away; otherwise its link starts at the null node. -/
theorem nearestLinked_iff (hF : F ∈ M.functions) (hL : L ∈ M.insts F)
    (hload : (M.kind L).isLoad = true) :
    NearestLinked M env (built M env) F L ↔
      ∃ S, M.MayStore env.AA F L S ∧ DDG.lineDist M L S < DDG.maxLocNum := by
  have hb := built_spec M env
  obtain ⟨w, hw⟩ := hb.exists_rep (a := .inst L) ⟨F, trivial, hF, hL⟩
  constructor
  · intro h
    obtain ⟨S, u, w', hu, hw', hcount, _⟩ := h
    obtain rfl := hw.inst_unique hw'
    have hlink : (built M env).ddg.HasLink (.to u) (.to w) DependencyType.dataRaw.toInt := by
      refine List.count_pos_iff.mp ?_
      rw [hcount, if_pos rfl]
      exact Nat.one_pos
    have hcand := (ddg_raw_iff hF hL hload hw _).mp hlink
    cases hc : DDG.candidateSI M env.AA F L with
    | none =>
      rw [hc, hb.graphs.inv.instMapAt_none] at hcand
      cases hcand
    | some S' =>
      obtain ⟨hlt, hmay, _⟩ := candidateSI_eq_some_iff.mp hc
      exact ⟨S', hmay, hlt⟩
  · intro h
    obtain ⟨S0, ⟨hS0, hst, ha⟩, hlt⟩ := h
    have hmem : S0 ∈ DDG.getDependencyInFunction M env.AA F L :=
      DDG.mem_getDependencyInFunction.mpr ⟨hS0, hst, ha⟩
    obtain ⟨S, hmin⟩ := exists_isFirstMin hmem hlt
    have hc := DDG.candidateSI_eq_some.mpr hmin
    obtain ⟨_, hmay, hfirst⟩ := candidateSI_eq_some_iff.mp hc
    obtain ⟨u, hu⟩ := hb.exists_rep (a := .inst S) ⟨F, trivial, hF, hmay.1⟩
    refine ⟨S, u, w, hu, hw, fun p => ?_, hmay, hfirst⟩
    have hiff := ddg_raw_iff hF hL hload hw p
    rw [hc, Registry.instMapAt_eq_to.mpr hu] at hiff
    rw [((built M env).ddg.nodup_linksFrom p).count]
    exact if_congr hiff rfl rfl

end Nearest

/-! ## A load far below its store -/

namespace FarStore

def inst (i : InstId) : Instruction :=
  Option.getD (List.lookup i [
    (0, ⟨"x", 1, .alloca (.other 1), 0⟩),
    (1, ⟨"", 0, .store (.other 0) (.inst 0), 0⟩),
    (2, ⟨"t", 100000, .load (.inst 0), 0⟩)])
    ⟨"", 100001, .ret none, 0⟩

def M : Module where
  inst := inst
  func _ := { name := "main", blocks := [⟨0, [0, 1, 2, 3]⟩] }
  functions := [0]
  globals := []
  annotations := []

end FarStore

open FarStore in
/-- The only store, without a line, is 100000 lines above the load: the load gets its RAW link from
the null node. -/
theorem farStore_not_nearestLinked :
    M.MayStore Env.straightLine.AA 0 2 1 ∧
      ¬ NearestLinked M .straightLine (built M .straightLine) 0 2 ∧
      ∃ w, Rep (built M .straightLine).reg (.inst 2) w ∧
        (built M .straightLine).ddg.HasLink .null (.to w) DependencyType.dataRaw.toInt := by
  have hF : (0 : FuncId) ∈ M.functions := by decide
  have hL : 2 ∈ M.insts 0 := by decide
  have hb := built_spec M .straightLine
  have hcand : DDG.candidateSI M Env.straightLine.AA 0 2 = none := by decide
  refine ⟨⟨by decide, rfl, by decide⟩, ?_, ?_⟩
  · intro h
    obtain ⟨S, u, w, hu, hw, hcount, _⟩ := h
    have hlink : (built M .straightLine).ddg.HasLink (.to u) (.to w)
        DependencyType.dataRaw.toInt := by
      refine List.count_pos_iff.mp ?_
      rw [hcount, if_pos rfl]
      exact Nat.one_pos
    have hnull := (ddg_raw_iff hF hL rfl hw _).mp hlink
    rw [hcand, hb.graphs.inv.instMapAt_none] at hnull
    cases hnull
  · obtain ⟨w, hw⟩ := hb.exists_rep (a := .inst 2) ⟨0, trivial, hF, hL⟩
    refine ⟨w, hw, (ddg_raw_iff hF hL rfl hw _).mpr ?_⟩
    rw [hcand, hb.graphs.inv.instMapAt_none]

namespace NearStore

def inst (i : InstId) : Instruction :=
  Option.getD (List.lookup i [
    (0, ⟨"x", 1, .alloca (.other 1), 0⟩),
    (1, ⟨"", 0, .store (.other 0) (.inst 0), 0⟩),
    (2, ⟨"t", 99999, .load (.inst 0), 0⟩)])
    ⟨"", 100000, .ret none, 0⟩

def M : Module where
  inst := inst
  func _ := { name := "main", blocks := [⟨0, [0, 1, 2, 3]⟩] }
  functions := [0]
  globals := []
  annotations := []

end NearStore

open NearStore in
theorem nearStore_nearestLinked : NearestLinked M .straightLine (built M .straightLine) 0 2 :=
  (nearestLinked_iff (F := 0) (by decide) (by decide) rfl).mpr
    ⟨1, ⟨by decide, rfl, by decide⟩, by decide⟩

end PDG
end DepTaint
