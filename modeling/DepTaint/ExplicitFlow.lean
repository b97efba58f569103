import DepTaint.Report
import DepTaint.TaintLines

/-!
# ExplicitFlow

The flows from an annotated variable that the report shows.

* `ExplicitFlow`: uses and reaching definitions, as the program has them.
* `Flow`: the part of them that the pass follows, the uses of every value but the dropped calls, and
  the one store selected for each load.
* `flow_listed`: a variable that a flow stores to is listed from the line of a flagged store on.
* `flow_not_listed`: a reaching definition that is not selected is missed.
-/

namespace DepTaint

/-- `u` is an operand of `v`, or a reaching definition of the load `v`. -/
inductive Module.ExplicitFlow (M : Module) (f : FuncId) (u v : InstId) : Prop where
  | operand : v ∈ M.insts f → .inst u ∈ (M.kind v).operands → M.ExplicitFlow f u v
  | reaches {p : InstId} : M.Reaches f p u v → M.ExplicitFlow f u v

namespace PDG

/-- `u` is an operand of `v` and no call that the merge loop leaves early, or it is the store
selected for the load `v`. -/
inductive Flow (M : Module) (env : Env) (f : FuncId) (u v : InstId) : Prop where
  | operand : v ∈ M.insts f → .inst u ∈ (M.kind v).operands → M.earlyExit u = false →
      Flow M env f u v
  | selected : v ∈ M.insts f → (M.kind v).isLoad = true →
      DDG.candidateSI M env.AA f v = some u → Flow M env f u v

section Flow

variable {M : Module} {env : Env} {b : State} {p : PropState} {r : Result} {F : FuncId}
  {a s t u v q : InstId}

theorem earlyExit_of_not_call (h : (M.kind u).isCall = false) : M.earlyExit u = false := by
  unfold Module.earlyExit
  cases hk : M.kind u with
  | call => simp [hk, Kind.isCall] at h
  | _ => rfl

theorem Flow.mem (h : Flow M env F u v) : v ∈ M.insts F := by
  cases h with
  | operand hv => exact hv
  | selected hv => exact hv

theorem Flow.edge (hF : F ∈ M.functions) (h : Flow M env F u v) :
    Edge M env (.inst u) (.inst v) (M.dataType u v).toInt := by
  cases h with
  | operand hv ho hu => exact ⟨F, hF, .data (.defUse hv ho) hu⟩
  | selected hv hl hc =>
    have hstore := (DDG.candidateSI_mem hc).2
    refine ⟨F, hF, .data (.raw hv hl hc) (earlyExit_of_not_call ?_)⟩
    cases hk : M.kind u with
    | call => simp [hk, Kind.isStore] at hstore
    | _ => rfl

theorem Flow.step (hF : F ∈ M.functions) (h : Flow M env F u v) :
    Step M env (.inst u) (.inst v) :=
  ⟨_, M.dataType_ne_call u v, h.edge hF⟩

/-- A flow leads from tainted instructions to tainted instructions. -/
theorem Tainted.flow (hF : F ∈ M.functions) (hs : Tainted M env (.inst s))
    (hst : Relation.ReflTransGen (Flow M env F) s t) : Tainted M env (.inst t) := by
  induction hst with
  | refl => exact hs
  | tail _ huv ih => exact ih.step (huv.step hF)

/-- Let a flow lead from a load of an annotated variable of `F` to a store to `q`. Then the final
entry of `q` is its own line if it is annotated, or the line of a flagged store that writes `q` or is
selected for a load of `q`; and the report for `F` lists `q` on every line from that line on. -/
theorem flow_listed (hrun : runOnModule M env .fresh = .ok r) (hcall : M.AnnotatesNoCall)
    (hF : F ∈ M.functions) (ha : M.Annotated a) (haF : a ∈ M.insts F) (hs : s ∈ M.insts F)
    (hload : M.kind s = .load (.inst a)) (hflow : Relation.ReflTransGen (Flow M env F) s t)
    (ht : M.StoresTo t q) (hq : Collects M F q) :
    ∃ l, ((M.Annotated q ∧ l = M.line q) ∨
        ∃ u, Reported M env F q u ∧ Flagged r.built.reg r.final u ∧ l = M.line u) ∧
      recorded r.final.funcMap F q = some l ∧ (∃ es, (F, es) ∈ r.taintValuesFile) ∧
      ∀ es, (F, es) ∈ r.taintValuesFile → ∀ e ∈ es, l ≤ e.1 → M.name q ∈ e.2 := by
  obtain ⟨p, h⟩ := runOnModule_ok hrun
  have hb := h.built
  have has : Flow M env F a s :=
    .operand hs (by simp [hload, Kind.operands]) (earlyExit_of_not_call (hcall.isCall ha))
  have htF : t ∈ M.insts F := by
    cases hflow with
    | refl => exact hs
    | tail _ hut => exact hut.mem
  have htf : Flagged r.built.reg r.final t :=
    h.flagged_iff.mpr ⟨⟨F, hF, htF⟩, (Tainted.of_seed (a := .inst a) ha (has.step hF)).flow hF hflow⟩
  obtain ⟨l, hl, hentry⟩ := entryLine hb h.started hF hq h.run
  have hline : (M.Annotated q ∧ l = M.line q) ∨
      ∃ u, Reported M env F q u ∧ Flagged r.built.reg r.final u ∧ l = M.line u := by
    cases hentry with
    | annotated hann => exact .inl ⟨hann, rfl⟩
    | unmarked _ hno => exact absurd htf (hno (h.started.seedsColored hb hcall) t ht)
    | store _ hu huf => exact .inr ⟨_, hu, huf, rfl⟩
  have hsen : F ∈ r.senFuncSet :=
    (h.started.senFuncSet F).mpr ⟨a, ha, Module.HasInst.parent ⟨hF, haF⟩⟩
  exact ⟨l, hline, hl, exists_report h.report hsen, fun es hes e he =>
    listed_of_recorded h.report hes he hl⟩

end Flow

/-! ## Flows the report misses -/

namespace Missed

def inst (i : InstId) : Instruction :=
  Option.getD (List.lookup i [
    (0, ⟨"a", 1, .alloca (.other 1), 0⟩),
    (1, ⟨"x", 2, .alloca (.other 1), 0⟩),
    (2, ⟨"q", 3, .alloca (.other 1), 0⟩),
    (3, ⟨"r", 3, .alloca (.other 1), 0⟩),
    (4, ⟨"a1", 4, .bitcast (.inst 0), 0⟩),
    (5, ⟨"", 4, .call (.func 1) [.inst 4] false, 0⟩),
    (6, ⟨"t", 5, .load (.inst 0), 0⟩),
    (7, ⟨"", 5, .store (.inst 6) (.inst 1), 0⟩),
    (8, ⟨"t2", 6, .load (.inst 0), 0⟩),
    (9, ⟨"add", 6, .other [.inst 8, .other 1], 0⟩),
    (10, ⟨"", 6, .store (.inst 9) (.inst 3), 0⟩),
    (11, ⟨"t3", 7, .load (.inst 0), 0⟩),
    (12, ⟨"", 7, .store (.inst 11) (.inst 3), 0⟩),
    (13, ⟨"", 8, .condBr (.other 2) 1 2, 0⟩),
    (14, ⟨"", 9, .store (.other 0) (.inst 1), 0⟩),
    (15, ⟨"", 9, .br 2, 0⟩),
    (16, ⟨"t4", 11, .load (.inst 1), 0⟩),
    (17, ⟨"", 11, .store (.inst 16) (.inst 2), 0⟩)])
    ⟨"", 12, .ret none, 0⟩

def M : Module where
  inst := inst
  func f := Option.getD (List.lookup f [
    (0, { name := "main", blocks := [
        ⟨0, [0, 1, 2, 3, 4, 5, 6, 7, 8, 9, 10, 11, 12, 13]⟩, ⟨1, [14, 15]⟩, ⟨2, [16, 17, 18]⟩] })])
    Function.varAnnotation
  functions := [0, 1]
  globals := []
  annotations := []

/-- Two accesses alias if their pointer operands are equal. -/
def env : Env :=
  { Env.straightLine with
    AA := fun L S => match (inst L).kind, (inst S).kind with
      | .load p, .store _ p' => if p = p' then .mustAlias else .noAlias
      | _, _ => .noAlias
    PDT := fun _ => .ifThen }

theorem alias_sound {L S : InstId} {v ptr : Value} (hL : M.kind L = .load ptr)
    (hS : M.kind S = .store v ptr) : env.AA L S ≠ .noAlias := by
  have hL' : (inst L).kind = .load ptr := hL
  have hS' : (inst S).kind = .store v ptr := hS
  simp [env, hL', hS']

/-- The store in line 5 reaches the load in line 11 past the branch. -/
theorem reaches : M.Reaches 0 1 7 16 := by
  have hnot : ∀ i ∈ [8, 9, 10, 11, 12, 13], ¬ M.StoresTo i 1 := by
    rintro i hi ⟨v, hv⟩
    have hall : ∀ i ∈ [8, 9, 10, 11, 12, 13], Value.inst 1 ∉ (M.kind i).operands := by decide
    exact hall i hi (by simp [hv, Kind.operands])
  have hblock : M.ClearPath 0 1 7 13 := by
    refine .block (b := 0) (by decide) [0, 1, 2, 3, 4, 5, 6] [8, 9, 10, 11, 12] [] rfl
      fun w hw => hnot w ?_
    simp only [List.mem_cons] at hw ⊢
    tauto
  have hjump : M.ClearPath 0 1 13 16 := .next ⟨0, by decide, .inr ⟨rfl, 2, by decide, rfl⟩⟩
  exact ⟨rfl, ⟨_, rfl⟩, rfl, hblock.trans (hnot 13 (by simp)) hjump⟩

end Missed

open Missed in
/-- The flow through `x` ends at the load in line 11, for which the store in line 9 is selected; and
the store of the sum to `r` in line 6 is flagged after the one in line 7. -/
theorem flow_not_listed : (∀ L S v ptr, M.kind L = .load ptr → M.kind S = .store v ptr →
      env.AA L S ≠ .noAlias) ∧
    M.Annotated 0 ∧ M.kind 6 = .load (.inst 0) ∧ M.kind 8 = .load (.inst 0) ∧
    Relation.ReflTransGen (M.ExplicitFlow 0) 6 17 ∧ M.StoresTo 17 2 ∧ Collects M 0 2 ∧
    Relation.ReflTransGen (M.ExplicitFlow 0) 8 10 ∧ M.StoresTo 10 3 ∧ Collects M 0 3 ∧
    ∃ r es, runOnModule M env .fresh = .ok r ∧ (0, es) ∈ r.taintValuesFile ∧
      (∃ e ∈ es, M.line 17 ≤ e.1 ∧ M.name 2 ∉ e.2) ∧
      ∃ e ∈ es, M.line 10 ≤ e.1 ∧ M.name 3 ∉ e.2 := by
  have hx : Relation.ReflTransGen (M.ExplicitFlow 0) 6 17 :=
    .tail (.tail (.single (.operand (v := 7) (by decide) (by decide))) (.reaches reaches))
      (.operand (by decide) (by decide))
  have hr : Relation.ReflTransGen (M.ExplicitFlow 0) 8 10 :=
    .tail (.single (.operand (v := 9) (by decide) (by decide))) (.operand (by decide) (by decide))
  obtain ⟨r, hrun, h⟩ := exists_ok (x := runOnModule M env .fresh)
    (P := fun r => r.taintValuesFile.any fun fe => fe.1 = 0 ∧
      (fe.2.any fun e => M.line 17 ≤ e.1 ∧ M.name 2 ∉ e.2) ∧
      fe.2.any fun e => M.line 10 ≤ e.1 ∧ M.name 3 ∉ e.2) (by decide +kernel)
  obtain ⟨⟨F, es⟩, hes, h⟩ := List.any_eq_true.mp h
  simp only [decide_eq_true_eq, List.any_eq_true] at h
  obtain ⟨rfl, hq, hr'⟩ := h
  exact ⟨fun L S v ptr => alias_sound, by decide, rfl, rfl, hx, ⟨_, rfl⟩, by decide, hr, ⟨_, rfl⟩,
    by decide, r, es, hrun, hes, hq, hr'⟩

/-- The copy of the annotated variable is listed. -/
theorem flow_listed_copy : ∃ r l, runOnModule Copy.M Copy.env .fresh = .ok r ∧
    recorded r.final.funcMap 0 1 = some l ∧
    ∀ es, (0, es) ∈ r.taintValuesFile → ∀ e ∈ es, l ≤ e.1 → Copy.M.name 1 ∈ e.2 := by
  obtain ⟨r, hrun, _⟩ := exists_ok (x := runOnModule Copy.M Copy.env .fresh)
    (P := fun _ => true) (by decide +kernel)
  obtain ⟨l, _, hl, _, hall⟩ := flow_listed (F := 0) (a := 0) (s := 4) (t := 5) (q := 1) hrun
    (by decide) (by decide) (by decide) (by decide) (by decide) rfl
    (.single (.operand (by decide) (by decide) rfl)) ⟨_, rfl⟩ (by decide)
  exact ⟨r, l, hrun, hl, hall⟩

end PDG
end DepTaint
