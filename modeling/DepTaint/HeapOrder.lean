import DepTaint.Report
import DepTaint.TaintLines

/-!
# HeapOrder

Two runs on the same module whose objects lie at different addresses, so that the pointer-keyed sets
are visited in different orders.

* `Tainted.congr`: what is tainted depends on the analyses, not on addresses.
* `heap_independent`: both runs flag, colour and mark the same, and print the same lines.
* `names_depend_on_heap`: the names they carry and list may differ.
-/

namespace DepTaint
namespace PDG

/-- The report has line `l` for `F`. -/
def Prints (r : Result) (F : FuncId) (l : Nat) : Prop :=
  ∃ es, (F, es) ∈ r.taintValuesFile ∧ ∃ names, (l, names) ∈ es

section Heap

variable {M : Module} {env env' : Env} {p : PropState} {r r' : Result} {F f : FuncId} {a b : Node}
  {t : Int} {l : Nat}

theorem FuncEdge.congr (hAA : env.AA = env'.AA) (hPDT : env.PDT = env'.PDT)
    (h : FuncEdge M env f a b t) : FuncEdge M env' f a b t := by
  cases h with
  | callEntry hi hc hl => exact .callEntry hi hc hl
  | returnCall hi hc hl hr hk => exact .returnCall hi hc hl hr hk
  | globalLoad hj hk hg => exact .globalLoad hj hk hg
  | data hd he =>
    rw [hAA] at hd
    exact .data hd he
  | control hc =>
    rw [hPDT] at hc
    exact .control hc
  | entryControl hc =>
    rw [hPDT] at hc
    exact .entryControl hc

theorem Tainted.congr (hAA : env.AA = env'.AA) (hPDT : env.PDT = env'.PDT)
    (h : Tainted M env a) : Tainted M env' a := by
  obtain ⟨x, hx, hxa⟩ := h
  refine ⟨x, hx, Relation.TransGen.mono (fun c d hcd => ?_) x a hxa⟩
  obtain ⟨t, ht, f, hf, he⟩ := hcd
  exact ⟨t, ht, f, hf, he.congr hAA hPDT⟩

/-- The lines printed for a function with an annotated variable are those of its instructions. -/
theorem Ran.prints_iff (h : Ran M env p r) : Prints r F l ↔
    (∃ I, M.Annotated I ∧ M.parent I = F) ∧ ∃ I ∈ M.insts F, Printable M I ∧ M.line I = l := by
  rw [← h.started.senFuncSet]
  constructor
  · rintro ⟨es, hes, names, hl⟩
    obtain ⟨hF, fw, _, rfl⟩ := (mem_report h.report).mp hes
    obtain ⟨I, hI, hp, he⟩ := mem_printTaintValues.mp hl
    cases he
    exact ⟨hF, I, hI, hp, rfl⟩
  · rintro ⟨hF, I, hI, hp, hl⟩
    obtain ⟨es, hes⟩ := exists_report h.report hF
    obtain ⟨_, fw, _, rfl⟩ := (mem_report h.report).mp hes
    subst hl
    exact ⟨_, hes, _, mem_printTaintValues.mpr ⟨I, hI, hp, rfl⟩⟩

/-- Two completed runs with the same alias analysis and post-dominator trees flag the same
instructions and print the same lines, wherever the objects lie. If no call is annotated, they also
colour the same instructions, have the same keys in `taintMap`, and, if all lines are below
`allocaMAX`, mark the same allocas. -/
theorem heap_independent (h : runOnModule M env .fresh = .ok r)
    (h' : runOnModule M env' .fresh = .ok r') (hAA : env.AA = env'.AA) (hPDT : env.PDT = env'.PDT) :
    (∀ i, Flagged r.built.reg r.final i ↔ Flagged r'.built.reg r'.final i) ∧
    (∀ F l, Prints r F l ↔ Prints r' F l) ∧
    (M.AnnotatesNoCall →
      (∀ i, Colored r.built.reg r.final i ↔ Colored r'.built.reg r'.final i) ∧
      (∀ i, (r.final.taintMap i).isSome = true ↔ (r'.final.taintMap i).isSome = true) ∧
      (M.LinesBelowMax → ∀ F ∈ M.functions, ∀ q, Collects M F q →
        ((∃ l, recorded r.final.funcMap F q = some l ∧ l < allocaMAX) ↔
          ∃ l, recorded r'.final.funcMap F q = some l ∧ l < allocaMAX))) := by
  obtain ⟨p, hr⟩ := runOnModule_ok h
  obtain ⟨p', hr'⟩ := runOnModule_ok h'
  have hflag : ∀ i, Flagged r.built.reg r.final i ↔ Flagged r'.built.reg r'.final i := by
    intro i
    rw [hr.flagged_iff, hr'.flagged_iff]
    exact and_congr_right fun _ => ⟨.congr hAA hPDT, .congr hAA.symm hPDT.symm⟩
  refine ⟨hflag, fun F l => hr.prints_iff.trans hr'.prints_iff.symm, fun hcall => ⟨?_, ?_, ?_⟩⟩
  · intro i
    rw [hr.colored_iff hcall, hr'.colored_iff hcall, hflag]
  · intro i
    rw [hr.taint_iff hcall, hr'.taint_iff hcall, hflag]
  · intro hlines F hF q hq
    rw [hr.marked_iff hcall hlines hF hq, hr'.marked_iff hcall hlines hF hq]
    simp only [hflag]

end Heap

/-! ## A sum of two annotated variables -/

namespace TwoSources

def inst (i : InstId) : Instruction :=
  Option.getD (List.lookup i [
    (0, ⟨"a", 1, .alloca (.other 1), 0⟩),
    (1, ⟨"b", 2, .alloca (.other 1), 0⟩),
    (2, ⟨"q", 3, .alloca (.other 1), 0⟩),
    (3, ⟨"a1", 4, .bitcast (.inst 0), 0⟩),
    (4, ⟨"", 4, .call (.func 1) [.inst 3] false, 0⟩),
    (5, ⟨"b1", 4, .bitcast (.inst 1), 0⟩),
    (6, ⟨"", 4, .call (.func 1) [.inst 5] false, 0⟩),
    (7, ⟨"t", 5, .load (.inst 0), 0⟩),
    (8, ⟨"t2", 5, .load (.inst 1), 0⟩),
    (9, ⟨"add", 5, .other [.inst 7, .inst 8], 0⟩),
    (10, ⟨"t3", 6, .load (.inst 0), 0⟩),
    (11, ⟨"", 6, .store (.inst 10) (.inst 2), 0⟩),
    (12, ⟨"t4", 9, .load (.inst 0), 0⟩),
    (13, ⟨"", 9, .store (.inst 12) (.inst 2), 0⟩)])
    ⟨"", 10, .ret none, 0⟩

def M : Module where
  inst := inst
  func f := Option.getD (List.lookup f [
    (0, { name := "main", blocks := [
        ⟨0, [0, 1, 2, 3, 4, 5, 6, 7, 8, 9, 10, 11, 12, 13, 14]⟩] })]) Function.varAnnotation
  functions := [0, 1]
  globals := []
  annotations := []

def env : Env := { Env.straightLine with AA := fun _ _ => .noAlias }

def addr (n : Nat) : Nat := if n ≤ 100 then 100 - n else n

theorem addr_injective : Function.Injective addr := by
  intro n m h
  unfold addr at h
  split at h <;> split at h <;> omega

/-- The first hundred objects in the opposite order. -/
def descending : Heap := ⟨addr, addr_injective⟩

end TwoSources

open TwoSources in
/-- The sum carries the name of the variable that is visited first, and `q` is listed from the line
of the store that is visited first. -/
theorem names_depend_on_heap : ∃ r r',
    runOnModule M env .fresh = .ok r ∧
    runOnModule M { env with heap := descending } .fresh = .ok r' ∧
    r.final.taintMap 9 = some {"a"} ∧ r'.final.taintMap 9 = some {"b"} ∧
    (∃ es names, (0, es) ∈ r.taintValuesFile ∧ (6, names) ∈ es ∧ "q" ∈ names) ∧
    ∀ es names, (0, es) ∈ r'.taintValuesFile → (6, names) ∈ es → "q" ∉ names := by
  obtain ⟨r, hr, h⟩ := exists_ok (x := runOnModule M env .fresh)
    (P := fun r => r.final.taintMap 9 = some {"a"} ∧ r.taintValuesFile.any fun fe => fe.1 = 0 ∧
      fe.2.any fun e => e.1 = 6 ∧ "q" ∈ e.2) (by decide +kernel)
  obtain ⟨r', hr', h'⟩ := exists_ok (x := runOnModule M { env with heap := descending } .fresh)
    (P := fun r => r.final.taintMap 9 = some {"b"} ∧ r.taintValuesFile.all fun fe => fe.1 = 0 →
      fe.2.all fun e => e.1 = 6 → "q" ∉ e.2) (by decide +kernel)
  simp only [decide_eq_true_eq, List.any_eq_true, List.all_eq_true, Prod.exists, Prod.forall]
    at h h'
  obtain ⟨hn, F, es, hes, rfl, l, names, he, rfl, hq⟩ := h
  exact ⟨r, r', hr, hr', hn, h'.1, ⟨es, names, hes, he, hq⟩, fun es names hes he =>
    h'.2 0 es hes rfl 6 names he rfl⟩

open TwoSources in
/-- Both runs mark `q`. -/
theorem heap_independent_twoSources : ∃ r r', runOnModule M env .fresh = .ok r ∧
    runOnModule M { env with heap := descending } .fresh = .ok r' ∧
    ((∃ l, recorded r.final.funcMap 0 2 = some l ∧ l < allocaMAX) ↔
      ∃ l, recorded r'.final.funcMap 0 2 = some l ∧ l < allocaMAX) := by
  obtain ⟨r, hr, _⟩ := exists_ok (x := runOnModule M env .fresh) (P := fun _ => true)
    (by decide +kernel)
  obtain ⟨r', hr', _⟩ := exists_ok (x := runOnModule M { env with heap := descending } .fresh)
    (P := fun _ => true) (by decide +kernel)
  obtain ⟨_, _, hcall⟩ := heap_independent hr hr' rfl rfl
  exact ⟨r, r', hr, hr', (hcall (by decide)).2.2 (by decide) 0 (by decide) 2 (by decide)⟩

end PDG
end DepTaint
