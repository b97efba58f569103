import DepTaint.AllocaMarks

/-!
# ReportMarks

The report of a function against the marks the propagation made.

* `Marked`: an annotated variable, or an alloca that some enqueuing gave a line.
* `Unmarked`: what the entry of any other alloca is, at any point of a run.
* `report_exact_iff`: when every printed line lists exactly the marked allocas up to that line.
-/

namespace DepTaint
namespace PDG

/-- `q` counts as tainted in `F` after the enqueuings of `hist`. -/
def Marked (M : Module) (F : FuncId) (hist : List Enqueuing) (q : InstId) : Prop :=
  (M.Annotated q ∧ q ∈ M.insts F) ∨ ∃ e ∈ hist, e.Marks M F q

/-- The lines printed for `F` are those of its instructions that are no calls, none twice in a row,
and each lists exactly the marked allocas whose entry is at most the line. -/
structure ReportExact (M : Module) (F : FuncId) (hist : List Enqueuing)
    (allocaMap : SortedMap InstId Nat) : Prop where
  lines : ∀ l, (∃ names, (l, names) ∈ printTaintValues M allocaMap F) ↔
    0 < l ∧ ∃ I ∈ M.insts F, (M.kind I).isCall = false ∧ M.line I = l
  consecutive : (printTaintValues M allocaMap F).IsChain fun e e' => e.1 ≠ e'.1
  names : ∀ e ∈ printTaintValues M allocaMap F, ∃ qs : List InstId, qs.Pairwise (· < ·) ∧
    (∀ q, q ∈ qs ↔ Marked M F hist q ∧ ∃ v, allocaMap.find? q = some v ∧ v ≤ e.1) ∧
    e.2 = qs.map M.name

/-- The entries of the allocas that are not marked: `allocaMAX` if collected, and 0 if an excluded
one was looked up. -/
structure Unmarked (M : Module) (F : FuncId) (hist : List Enqueuing) (s : PropState) : Prop where
  collected : ∀ q, ¬ Marked M F hist q → Collects M F q →
    recorded s.funcMap F q = some allocaMAX
  lookedUp : ∀ q, ¬ Marked M F hist q → ¬ Collects M F q → (∃ e ∈ hist, e.LooksUp M F q) →
    recorded s.funcMap F q = some 0
  missing : ∀ q, ¬ Marked M F hist q → ¬ Collects M F q → (¬ ∃ e ∈ hist, e.LooksUp M F q) →
    recorded s.funcMap F q = none

section Marks

variable {M : Module} {env : Env} {b : State} {p s s' : PropState} {senFuncSet : List FuncId}
  {F : FuncId} {hist : List Enqueuing} {e : Enqueuing} {n : Nat}

theorem Started.unmarked (hb : Built M env b M.functions) (hst : Started M b p senFuncSet)
    (hF : F ∈ M.functions) : Unmarked M F [] p := by
  have hrec : ∀ q, ¬ Marked M F [] q → PDG.recorded p.funcMap F q =
      if Collects M F q then some allocaMAX else none := by
    intro q hq
    rw [hst.recorded, if_neg, hb.recorded hF]
    intro h
    obtain ⟨rfl, hann⟩ := h
    exact hq (.inl ⟨hann, hann.hasInst.2⟩)
  refine ⟨fun q hq hc => ?_, fun q _ _ hu => ?_, fun q hq hc _ => ?_⟩
  · rw [hrec q hq, if_pos hc]
  · obtain ⟨_, he, _⟩ := hu
    cases he
  · rw [hrec q hq, if_neg hc]

theorem Unmarked.step (h : Unmarked M F hist e.before)
    (he : Enqueued M e.source e.target e.inst e.before e.after) :
    Unmarked M F (hist ++ [e]) e.after := by
  have hold : ∀ {q}, ¬ Marked M F (hist ++ [e]) q → ¬ Marked M F hist q ∧ ¬ e.Marks M F q := by
    intro q hq
    refine ⟨fun hm => hq ?_, fun hm => hq (.inr ⟨e, by simp, hm⟩)⟩
    rcases hm with hm | ⟨d, hd, hm⟩
    · exact .inl hm
    · exact .inr ⟨d, by simp [hd], hm⟩
  have hlook : ∀ q, (∃ d ∈ hist ++ [e], d.LooksUp M F q) ↔
      (∃ d ∈ hist, d.LooksUp M F q) ∨ e.LooksUp M F q := by
    intro q
    simp [or_and_right, exists_or]
  refine ⟨fun q hq hc => ?_, fun q hq hc hu => ?_, fun q hq hc hu => ?_⟩
  · obtain ⟨hqh, hqe⟩ := hold hq
    exact Enqueuing.recorded_eq_some he hqe (h.collected q hqh hc)
  · obtain ⟨hqh, hqe⟩ := hold hq
    by_cases hux : ∃ d ∈ hist, d.LooksUp M F q
    · exact Enqueuing.recorded_eq_some he hqe (h.lookedUp q hqh hc hux)
    · have hbefore := h.missing q hqh hc hux
      rcases Enqueuing.entry (F := F) (q := q) he with ⟨hm, _⟩ | ⟨_, _, hl⟩ | ⟨hne, _⟩
      · exact absurd hm hqe
      · rw [hl, hbefore, Option.getD_none]
      · exact absurd (((hlook q).mp hu).resolve_left hux) hne
  · obtain ⟨hqh, hqe⟩ := hold hq
    rw [hlook, not_or] at hu
    have hbefore := h.missing q hqh hc hu.1
    rcases Enqueuing.entry (F := F) (q := q) he with ⟨hm, _⟩ | ⟨_, hl, _⟩ | ⟨_, hl⟩
    · exact absurd hm hqe
    · exact absurd hl hu.2
    · rw [hl, hbefore]

/-- The entries of unmarked allocas at any point of a run. -/
theorem unmarked (hb : Built M env b M.functions) (hst : Started M b p senFuncSet)
    (hF : F ∈ M.functions) (h : propagate M b.reg n p = .ok s) :
    Unmarked M F (trace M b.reg n p) s := by
  refine trace_induction (P := Unmarked M F) (hst.unmarked hb hF) ?_ ?_ h
  · intro hist s s0 W queue hs hu
    refine ⟨fun q hq hc => ?_, fun q hq hc hl => ?_, fun q hq hc hl => ?_⟩
    · rw [hs.recorded]
      exact hu.collected q hq hc
    · rw [hs.recorded]
      exact hu.lookedUp q hq hc hl
    · rw [hs.recorded]
      exact hu.missing q hq hc hl
  · intro hist s1 s2 W adj I _ _ _ he hu
    exact hu.step (e := ⟨W, adj, I, s1, s2⟩) he

/-- The part of the report that does not depend on the marks. -/
theorem printTaintValues_lines {allocaMap : SortedMap InstId Nat} {l : Nat} :
    (∃ names, (l, names) ∈ printTaintValues M allocaMap F) ↔
      0 < l ∧ ∃ I ∈ M.insts F, (M.kind I).isCall = false ∧ M.line I = l := by
  simp only [mem_printTaintValues, Printable, Prod.mk.injEq]
  constructor
  · intro h
    obtain ⟨_, I, hI, ⟨hc, hpos⟩, rfl, _⟩ := h
    exact ⟨hpos, I, hI, hc, rfl⟩
  · intro h
    obtain ⟨hpos, I, hI, hc, rfl⟩ := h
    exact ⟨_, I, hI, ⟨hc, hpos⟩, rfl, rfl⟩

/-- The report is exact if no unmarked key is at most a printed line. -/
theorem reportExact_iff {allocaMap : SortedMap InstId Nat} : ReportExact M F hist allocaMap ↔
    ∀ I ∈ M.insts F, Printable M I → ∀ q v, allocaMap.find? q = some v → v ≤ M.line I →
      Marked M F hist q := by
  constructor
  · intro h I hI hp
    exact namesUpTo_iff.mp (h.names _ (mem_printTaintValues.mpr ⟨I, hI, hp, rfl⟩))
  · intro h
    refine ⟨fun l => printTaintValues_lines, printTaintValues_isChain, fun e he => ?_⟩
    obtain ⟨I, hI, hp, rfl⟩ := mem_printTaintValues.mp he
    exact namesUpTo_iff.mpr (h I hI hp)

/-- After a run, the report of `F` is exact if and only if every collected alloca of `F` is marked
when a line from `allocaMAX` on is printed, and every excluded alloca that was looked up is marked
when any line is printed. -/
theorem report_exact_iff (hstart : start M .fresh (built M env) = .ok (p, senFuncSet))
    (h : propagate M (built M env).reg n p = .ok s) (hF : F ∈ M.functions) {fw : FunctionWrapper}
    (hfw : s.funcMap F = some fw) :
    let hist := trace M (built M env).reg n p
    ReportExact M F hist fw.allocaMap ↔ ∀ I ∈ M.insts F, Printable M I →
      (allocaMAX ≤ M.line I → ∀ q, Collects M F q → Marked M F hist q) ∧
      ∀ q, ¬ Collects M F q → (∃ e ∈ hist, e.LooksUp M F q) → Marked M F hist q := by
  intro hist
  have hu := unmarked (built_spec M env) (start_spec (built_spec M env) hstart) hF h
  have hrec : ∀ q, recorded s.funcMap F q = fw.allocaMap.find? q := by
    intro q
    simp [recorded, hfw]
  rw [reportExact_iff]
  refine forall_congr' fun I => imp_congr_right fun _ => imp_congr_right fun hp => ?_
  constructor
  · intro hall
    refine ⟨fun hmax q hc => ?_, fun q hc hl => ?_⟩
    · by_contra hm
      have := hu.collected q hm hc
      rw [hrec] at this
      exact hm (hall q _ this hmax)
    · by_contra hm
      have := hu.lookedUp q hm hc hl
      rw [hrec] at this
      exact hm (hall q _ this (Nat.zero_le _))
  · rintro ⟨hfar, hslot⟩ q v hv hle
    by_contra hm
    by_cases hc : Collects M F q
    · have := hu.collected q hm hc
      rw [hrec, hv] at this
      cases this
      exact hm (hfar hle q hc)
    · refine hm (hslot q hc ?_)
      by_contra hl
      have := hu.missing q hm hc hl
      rw [hrec, hv] at this
      cases this

end Marks

open Copy in
/-- Both variables of a copy are collected, and no line is that large. -/
theorem report_exact_iff_copy : ∃ x s fw, start M .fresh (built M env) = .ok x ∧
    propagate M (built M env).reg (iterations (built M env).reg x.1) x.1 = .ok s ∧
    s.funcMap 0 = some fw ∧ ReportExact M 0 (trace M (built M env).reg
      (iterations (built M env).reg x.1) x.1) fw.allocaMap := by
  obtain ⟨x, hx, h⟩ := exists_ok (x := start M .fresh (built M env)) (P := fun x =>
    (propagate M (built M env).reg (iterations (built M env).reg x.1) x.1).toOption.any
      fun s => (s.funcMap 0).isSome) (by decide +kernel)
  obtain ⟨s, hs, h⟩ := exists_ok h
  obtain ⟨fw, hfw⟩ := Option.isSome_iff_exists.mp h
  have hline : ∀ i ∈ M.insts 0, M.line i < allocaMAX := by decide
  refine ⟨x, s, fw, hx, hs, hfw, (report_exact_iff hx hs (by decide) hfw).mpr fun I hI _ => ?_⟩
  refine ⟨fun hmax => absurd (hline I hI) (Nat.not_lt.mpr hmax), fun q hc hl => absurd ?_ hc⟩
  obtain ⟨_, _, _, hq, _⟩ := hl
  match q with
  | 0 | 1 => decide
  | 2 | 3 | 4 | 5 | _ + 6 => cases hq

/-! ## A variable in a long file -/

namespace LongFile

def inst (i : InstId) : Instruction :=
  Option.getD (List.lookup i [
    (0, ⟨"a", 1, .alloca (.other 1), 0⟩),
    (1, ⟨"q", 2, .alloca (.other 1), 0⟩),
    (2, ⟨"a1", 3, .bitcast (.inst 0), 0⟩),
    (3, ⟨"", 3, .call (.func 1) [.inst 2] false, 0⟩),
    (4, ⟨"t", 5, .load (.inst 0), 0⟩)])
    ⟨"", 100000, .ret none, 0⟩

def M : Module where
  inst := inst
  func f := Option.getD (List.lookup f [
    (0, { name := "main", blocks := [⟨0, [0, 1, 2, 3, 4, 5]⟩] })]) Function.varAnnotation
  functions := [0, 1]
  globals := []
  annotations := []

/-- Nothing uses `q`. -/
theorem not_used (i : InstId) : .inst 1 ∉ (M.kind i).operands := by
  match i with
  | 0 | 1 | 2 | 3 | 4 => decide
  | _ + 5 => exact List.not_mem_nil

end LongFile

open LongFile in
/-- Nothing uses `q`, but line 100000 lists it. -/
theorem longFile_lists_unmarked : ∃ x s fw, start M .fresh (built M .straightLine) = .ok x ∧
    propagate M (built M .straightLine).reg (iterations (built M .straightLine).reg x.1) x.1 =
      .ok s ∧
    s.queue = [] ∧ s.funcMap 0 = some fw ∧
    (100000, ["a", "q"]) ∈ printTaintValues M fw.allocaMap 0 ∧
    ¬ ReportExact M 0 (trace M (built M .straightLine).reg
      (iterations (built M .straightLine).reg x.1) x.1) fw.allocaMap := by
  obtain ⟨x, hx, h⟩ := exists_ok (x := start M .fresh (built M .straightLine))
    (P := fun x => (propagate M (built M .straightLine).reg
      (iterations (built M .straightLine).reg x.1) x.1).toOption.any fun s =>
        s.queue = [] ∧ (s.funcMap 0).any fun fw =>
          (100000, ["a", "q"]) ∈ printTaintValues M fw.allocaMap 0 ∧
            fw.allocaMap.find? 1 = some 100000) (by decide +kernel)
  obtain ⟨s, hs, h⟩ := exists_ok h
  rw [decide_eq_true_eq] at h
  obtain ⟨hq, hfw⟩ := h
  cases hf : s.funcMap 0 with
  | none => simp [hf] at hfw
  | some fw =>
    rw [hf, Option.any_some, decide_eq_true_eq] at hfw
    refine ⟨x, s, fw, hx, hs, hq, hf, hfw.1, fun hex => ?_⟩
    rcases reportExact_iff.mp hex 5 (by decide) ⟨rfl, by decide⟩ 1 _ hfw.2 (by decide) with
      ⟨hann, _⟩ | ⟨e, _, _, _, ⟨⟨v, hv⟩, _⟩ | ⟨hl, _⟩⟩
    · exact absurd hann (by decide)
    · exact not_used e.inst (by simp [hv, Kind.operands])
    · exact not_used e.inst (by simp [hl, Kind.operands])

end PDG
end DepTaint
