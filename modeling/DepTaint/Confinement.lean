import DepTaint.CallLinks
import DepTaint.Seeds

/-!
# Confinement

Which links of the worklist loop stay within one function.

* `local_iff`: the links followed from a wrapper stay in its function exactly if it is `Confined`.
* `confined_run_iff`: the same for a run; then only functions with an annotated variable are reached.
-/

namespace DepTaint
namespace PDG

/-- No link that is followed from `W` leads to a wrapper of another function. -/
def Local (pdg : DependencyGraph WrapperPtr) (W : InstructionWrapper) : Prop :=
  ∀ adj ∈ follows pdg W, ∀ f f', W.func = some f → adj.func = some f' → f = f'

/-- `W` is no call of another function listed up to its own, and no value return to a call in
another function that its own is listed up to. -/
structure Confined (M : Module) (W : InstructionWrapper) : Prop where
  call : ∀ i g, W.inst = some i → M.Calls i g → M.ListedUpTo g (M.parent i) → g = M.parent i
  ret : ∀ i v c f, W.inst = some i → M.kind i = .ret (some v) → M.HasInst f c →
    M.Calls c (M.parent i) → M.ListedUpTo (M.parent i) f → f = M.parent i

section Local

variable {M : Module} {env : Env} {s : State} {W : InstructionWrapper}

/-- The links that do not connect a call stay in the function that adds them. -/
theorem FuncEdge.func_eq {F : FuncId} (hF : F ∈ M.functions) {a b : Node} {t : Int}
    (h : FuncEdge M env F a b t) (ht : t ≠ DependencyType.dataGeneral.toInt) :
    b.func M = some F ∧ (a.func M = some F ∨ a.func M = none) := by
  have hin : ∀ {i}, i ∈ M.insts F → M.parent i = F := fun hi => Module.HasInst.parent ⟨hF, hi⟩
  cases h with
  | callEntry => exact absurd rfl ht
  | returnCall => exact absurd rfl ht
  | globalLoad hj => exact ⟨congrArg some (hin hj), .inr rfl⟩
  | data hd =>
    obtain ⟨hi, hj⟩ := mem_insts_of_edge hF hd
    exact ⟨congrArg some (hin hj), .inl (congrArg some (hin hi))⟩
  | control hc =>
    obtain ⟨hi, hj⟩ := hc.mem_insts
    exact ⟨congrArg some (hin hj), .inl (congrArg some (hin hi))⟩
  | entryControl hc => exact ⟨congrArg some (hin hc.mem_insts), .inl rfl⟩

/-- A wrapper is linked within its function exactly if it is confined. -/
theorem local_iff (hb : Built M env s M.functions) (hW : W ∈ s.reg.nodes) :
    Local s.pdg W ↔ Confined M W := by
  have hinv := hb.graphs.inv
  obtain ⟨a, ha⟩ := exists_rep hinv hW
  constructor
  · intro hlocal
    refine ⟨fun i g hi hc hl => ?_, fun i v c f hi hv hcf hc hl => ?_⟩
    · have hrep := rep_of_inst hinv hW hi
      have hin := (hrep.mem_list hinv).1
      obtain ⟨root, hroot⟩ := hb.exists_rep (a := .entry g)
        ⟨trivial, hc.mem_functions hin.1 hin.2, hc.2.1⟩
      have hadj := (follows_edge hb hrep).mpr ⟨.entry g, _, hroot, by decide,
        _, hin.1, .callEntry hin.2 hc hl⟩
      exact (hlocal root hadj _ _ (hrep.isInst hinv).func (hroot.isEntry hinv).func).symm
    · have hrep := rep_of_inst hinv hW hi
      have hin := (hrep.mem_list hinv).1
      obtain ⟨w, hw⟩ := hb.exists_rep (a := .inst c) ⟨f, trivial, hcf⟩
      have hadj := (follows_edge hb hrep).mpr ⟨.inst c, _, hw, by decide,
        f, hcf.1, .returnCall hcf.2 hc hl hin.2 hv⟩
      have := hlocal w hadj _ _ (hrep.isInst hinv).func (hw.isInst hinv).func
      rw [this, hcf.parent]
  · intro hconf adj hadj f f' hf hf'
    obtain ⟨b, t, hb', _, F, hF, hedge⟩ := (follows_edge hb ha).mp hadj
    rw [ha.func hinv] at hf
    rw [hb'.func hinv] at hf'
    have hsame : t ≠ DependencyType.dataGeneral.toInt → f = f' := by
      intro ht
      obtain ⟨hbF, haF | haF⟩ := hedge.func_eq hF ht
      · rw [haF] at hf
        rw [hbF] at hf'
        exact (Option.some.inj hf).symm.trans (Option.some.inj hf')
      · rw [haF] at hf
        cases hf
    cases hedge with
    | @callEntry i g hi hc hl =>
      have hp := Module.HasInst.parent ⟨hF, hi⟩
      cases hf
      cases hf'
      exact (hconf.call i _ (ha.isInst hinv).inst hc (hp ▸ hl)).symm
    | @returnCall i r g v hi hc hl hr hv =>
      have hpi := Module.HasInst.parent ⟨hF, hi⟩
      have hpr := Module.HasInst.parent ⟨hc.mem_functions hF hi, hr⟩
      cases hf
      cases hf'
      rw [hpi]
      exact (hconf.ret r v i F (ha.isInst hinv).inst hv ⟨hF, hi⟩ (hpr.symm ▸ hc)
        (hpr.symm ▸ hl)).symm
    | globalLoad => cases hf
    | data =>
      refine hsame ?_
      unfold Module.dataType
      split <;> decide
    | control => exact hsame (by decide)
    | entryControl => exact hsame (by decide)

end Local

section Run

variable {M : Module} {env : Env} {s s' : State} {p : PropState} {senFuncSet : List FuncId}

/-- If the dequeued wrappers are confined, only functions with an annotated variable are reached. -/
theorem flag_func (hb : Built M env s M.functions) (hst : Started M s p senFuncSet)
    (hlocal : ∀ k W, Dequeues M s.reg p k W → Local s.pdg W) {n : Nat} {r : PropState}
    (h : propagate M s.reg n p = .ok r) : ∀ w, r.flag w = true →
      ∃ I, M.Annotated I ∧ w.func = some (M.parent I) := by
  have hinv := hb.graphs.inv
  refine flag_induction hst.startable ?_ h
  intro s1 s2 W adj I hv he hP
  -- the wrapper it is enqueued from belongs to a function with an annotated variable
  obtain ⟨J, hJ, hWJ⟩ : ∃ J, M.Annotated J ∧ W.func = some (M.parent J) := by
    rcases hv.seed_or_flag with hW | hW
    · obtain ⟨a, ha, hseed⟩ := hst.seed_cases hb hW
      cases a with
      | inst J => exact ⟨J, hseed, (ha.isInst hinv).func⟩
      | entry f => cases hseed
      | global g => exact absurd ha (hv.not_global hb he)
    · exact hP W hW
  obtain ⟨k, hk⟩ := hv.dequeues
  have hadj := (rep_of_inst hinv hv.mem_nodes hv.inst).isInst hinv
  refine ⟨J, hJ, ?_⟩
  rw [hlocal k W hk adj (hst.pdg ▸ hv.follows) _ _ hWJ hadj.func, hadj.func]

/-- In a run of the worklist loop, every wrapper that is dequeued is confined if and only if no
followed link leads to another function; then everything that gets flagged belongs to a function
with an annotated variable. -/
theorem confined_run_iff
    (hstart : start M .fresh (built M env) = .ok (p, senFuncSet)) :
    (∀ k W, Dequeues M (built M env).reg p k W → Confined M W) ↔
      (∀ k W, Dequeues M (built M env).reg p k W → Local p.pdg W) ∧
      ∀ n r, propagate M (built M env).reg n p = .ok r → ∀ w, r.flag w = true →
        ∃ I, M.Annotated I ∧ w.func = some (M.parent I) := by
  have hb := built_spec M env
  have hst := start_spec hb hstart
  have hiff : ∀ k W, Dequeues M (built M env).reg p k W → (Local p.pdg W ↔ Confined M W) := by
    intro k W hW
    rw [hst.pdg]
    exact local_iff hb (hW.mem_nodes hst.startable hst.queue_mem)
  constructor
  · intro hconf
    have hlocal : ∀ k W, Dequeues M (built M env).reg p k W → Local p.pdg W := fun k W hW =>
      (hiff k W hW).mpr (hconf k W hW)
    exact ⟨hlocal, fun n r hr => flag_func hb hst (hst.pdg ▸ hlocal) hr⟩
  · rintro ⟨hlocal, _⟩ k W hW
    exact (hiff k W hW).mp (hlocal k W hW)

end Run

/-! ## A returned value -/

namespace Returned

def inst (i : InstId) : Instruction :=
  Option.getD (List.lookup i [
    (0, ⟨"call", 6, .call (.func 1) [] false, 0⟩),
    (1, ⟨"", 7, .ret none, 0⟩),
    (2, ⟨"a", 1, .alloca (.other 1), 1⟩),
    (3, ⟨"a1", 1, .bitcast (.inst 2), 1⟩),
    (4, ⟨"", 1, .call (.func 2) [.inst 3] false, 1⟩),
    (5, ⟨"t", 2, .load (.inst 2), 1⟩)])
    ⟨"", 3, .ret (some (.inst 5)), 1⟩

def M : Module where
  inst := inst
  func f := Option.getD (List.lookup f [
    (0, { name := "main", blocks := [⟨0, [0, 1]⟩] }),
    (1, { name := "get", blocks := [⟨0, [2, 3, 4, 5, 6]⟩] })]) Function.varAnnotation
  functions := [1, 0, 2]
  globals := []
  annotations := []

/-- The same functions, with `get` listed after `main`. -/
def later : Module where
  inst := inst
  func := M.func
  functions := [0, 1, 2]
  globals := []
  annotations := []

end Returned

open Returned in
/-- The return is followed from `get` to `main`, which has no annotated variable. -/
theorem returned_not_local :
    ∃ x, start M .fresh (built M .straightLine) = .ok x ∧
      (∃ k W, Dequeues M (built M .straightLine).reg x.1 k W ∧ ¬ Local x.1.pdg W) ∧
      ∃ n r, propagate M (built M .straightLine).reg n x.1 = .ok r ∧ ∃ w, r.flag w = true ∧
        w.func = some 0 ∧ ¬ ∃ I, M.Annotated I ∧ M.parent I = 0 := by
  obtain ⟨x, hx, h⟩ := exists_ok (x := start M .fresh (built M .straightLine))
    (P := fun x => (propagate M (built M .straightLine).reg 4 x.1).toOption.any (fun s =>
        s.queue.head?.any fun W => W.func = some 1 ∧
          (follows x.1.pdg W).any (·.func = some 0)) ∧
      (propagate M (built M .straightLine).reg 5 x.1).toOption.any fun s =>
        s.queue.any fun w => s.flag w ∧ w.func = some 0) (by decide +kernel)
  rw [decide_eq_true_eq] at h
  obtain ⟨s, hs, hW⟩ := exists_ok h.1
  obtain ⟨r, hr, hw⟩ := exists_ok h.2
  obtain ⟨W, hq, hW⟩ := (Option.any_eq_true _ _).mp hW
  rw [decide_eq_true_eq, List.any_eq_true] at hW
  obtain ⟨hWf, adj, hadj, hf⟩ := hW
  obtain ⟨queue, hqueue⟩ := List.head?_eq_some_iff.mp hq
  refine ⟨x, hx, ⟨4, W, ⟨s, queue, hs, hqueue⟩, fun hlocal => ?_⟩, 5, r, hr, ?_⟩
  · have := hlocal adj hadj _ _ hWf (by simpa using hf)
    cases this
  · obtain ⟨w, _, hw⟩ := List.any_eq_true.mp hw
    rw [decide_eq_true_eq] at hw
    refine ⟨w, hw.1, hw.2, ?_⟩
    rintro ⟨I, hI, hp⟩
    have hnone : ∀ I ∈ M.insts 0, ¬ M.Annotated I := by decide
    exact hnone I (hp ▸ hI.hasInst.2) hI

open Returned in
/-- The callee is listed later, so neither its entry nor its return is linked to the call. -/
theorem confined_run_iff_later : later.Calls 0 1 ∧
    ∃ x, start later .fresh (built later .straightLine) = .ok x ∧
      ∀ n r, propagate later (built later .straightLine).reg n x.1 = .ok r → ∀ w, r.flag w = true →
        ∃ I, later.Annotated I ∧ w.func = some (later.parent I) := by
  have hcalls : ∀ i g, later.Calls i g → i = 0 ∧ g = 1 := by
    rintro i g ⟨hint, _, args, hk⟩
    match i with
    | 0 =>
      cases hk
      exact ⟨rfl, rfl⟩
    | 4 =>
      cases hk
      cases hint
    | 1 | 2 | 3 | 5 | _ + 6 => cases hk
  obtain ⟨x, hx, _⟩ := exists_ok (x := start later .fresh (built later .straightLine))
    (P := fun _ => true) (by decide +kernel)
  refine ⟨⟨by decide, by decide, _, rfl⟩, x, hx, ((confined_run_iff hx).mp fun k W _ =>
    ⟨fun i g _ hc hl => ?_, fun i v c f _ _ hin hc hl => ?_⟩).2⟩
  · obtain ⟨rfl, rfl⟩ := hcalls i g hc
    exact absurd hl (by decide)
  · obtain ⟨rfl, hp⟩ := hcalls c _ hc
    obtain rfl : 0 = f := hin.parent
    rw [hp] at hl
    exact absurd hl (by decide)

end PDG
end DepTaint
