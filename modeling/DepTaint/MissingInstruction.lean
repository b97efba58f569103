import DepTaint.Seeds

/-!
# MissingInstruction

When the worklist loop uses an instruction that a wrapper does not carry, or a pointer that is not
registered.

* `Safe`: what an iteration must not meet.
* `safe_run`: a run whose iterations are safe faults for no such reason, and an iteration that does
  not fault is safe.
-/

namespace DepTaint
namespace PDG

/-- Dequeuing `W` in `s` meets no missing instruction: `W` is no call whose callee is listed up to
its function, no call of a later function that got a dangling pointer, and no global with a load
that is not flagged yet. -/
structure Safe (M : Module) (env : Env) (reg : Registry) (s : PropState) (W : InstructionWrapper) :
    Prop where
  call : ∀ i g, W.inst = some i → M.Calls i g →
    ¬ M.ListedUpTo g (M.parent i) ∧ env.garbage = .null
  load : ∀ g j w, Rep reg (.global g) W → Rep reg (.inst j) w → j ∈ M.insts (M.parent j) →
    M.kind j = .load (.global g) → s.flag w = true

/-- Every iteration of the run from `p` is safe. -/
def SafeRun (M : Module) (env : Env) (reg : Registry) (p : PropState) : Prop :=
  ∀ k s W queue, propagate M reg k p = .ok s → s.queue = W :: queue → Safe M env reg s W

section Safe

variable {M : Module} {env : Env} {b : State} {s s' p : PropState} {senFuncSet : List FuncId}
  {done queue : List InstructionWrapper} {W : InstructionWrapper} {e : Fault}

/-- A safe iteration only faults for want of a `taintMap` entry. -/
theorem Safe.iterate_error (hb : Built M env b M.functions) (hst : Started M b p senFuncSet)
    (hr : Running M p done s) (hflag : ∀ w, s.flag w = true → ∃ I, w.inst = some I)
    (hW : W ∈ b.reg.nodes) (hq : s.queue = W :: queue) (hsafe : Safe M env b.reg s W)
    (h : iterate M b.reg s = .error e) : e = .missingTaint := by
  have hinv := hb.graphs.inv
  have hfunc : ∀ j w, Rep b.reg (.inst j) w → (s.funcMap (M.parent j)).isSome := by
    intro j w hw
    obtain ⟨fw, hfw⟩ := hb.graphs.funcMap _ (hw.mem_list hinv).1.1
    rw [hr.func_isSome, hst.func_isSome, hfw]
    rfl
  let s0 : PropState := { s with queue := queue }
  have hlinks : ∀ q, s0.pdg.linksFrom q = b.pdg.linksFrom q := fun q => by
    rw [← hst.pdg]
    exact hr.linksFrom q
  obtain ⟨a, ha⟩ := exists_rep hinv hW
  have hd : dequeue M b.reg s0 W = .error e := by
    unfold iterate at h
    rwa [hq] at h
  refine (dequeue_error (s := s0) ?_ ?_ hflag ?_ hd).1
  · intro ht
    cases a with
    | inst i => exact ⟨_, (ha.isInst hinv).func, hfunc i W ha⟩
    | entry f => cases ht.symm.trans (ha.isEntry hinv).type
    | global g => cases ht.symm.trans (ha.isGlobal hinv).type
  · intro q t hl
    unfold DependencyGraph.HasLink at hl
    rw [hlinks] at hl
    obtain ⟨a', w, ha', hw, ⟨_, w', hw', rfl⟩ | ⟨rfl, _, _, i, _, rfl, g, hc, _⟩⟩ :=
      hb.pdg_link_cases hl
    · exact .inr ⟨w', hw'.mem_nodes hinv, rfl⟩
    · cases hw
      exact .inl (hsafe.call i g (ha'.isInst hinv).inst hc).2
  · intro adj hadj
    rw [show follows s0.pdg = follows b.pdg from follows_congr hlinks] at hadj
    obtain ⟨c, t, hc, _, F, hF, hedge⟩ := (follows_edge hb ha).mp hadj
    -- a dequeued wrapper is no ENTRY wrapper
    have hentry : ∀ f, a ≠ .entry f := by
      rintro f rfl
      rcases hr.seed_or_flag hq with hseed | hw
      · exact (hst.queue _ W ha).mp hseed
      · obtain ⟨I, hI⟩ := hflag W hw
        rw [(ha.isEntry hinv).inst] at hI
        cases hI
    have hinst : ∀ i j, a = .inst i → c = .inst j → (s0.flag adj = false → ∃ i, W.inst = some i) ∧
        ∃ I, adj.inst = some I ∧ (s0.funcMap (M.parent I)).isSome := by
      rintro i j rfl rfl
      exact ⟨fun _ => ⟨i, (ha.isInst hinv).inst⟩, j, (hc.isInst hinv).inst, hfunc j adj hc⟩
    cases hedge with
    | @callEntry i g hi hcall hl =>
      have hp := Module.HasInst.parent ⟨hF, hi⟩
      exact absurd (hp ▸ hl) (hsafe.call i g (ha.isInst hinv).inst hcall).1
    | returnCall => exact hinst _ _ rfl rfl
    | @globalLoad j g hj hk _ =>
      have hp := Module.HasInst.parent ⟨hF, hj⟩
      refine ⟨fun hnf => ?_, j, (hc.isInst hinv).inst, hfunc j adj hc⟩
      have := hsafe.load g j adj ha hc (hp ▸ hj) hk
      rw [show s0.flag adj = s.flag adj from rfl, this] at hnf
      cases hnf
    | data => exact hinst _ _ rfl rfl
    | control => exact hinst _ _ rfl rfl
    | entryControl => exact absurd rfl (hentry _)

/-- From the wrapper of a global an iteration that does not fault flags nothing. -/
theorem dequeue_global (hb : Built M env b M.functions) {g : GlobalId}
    (hg : Rep b.reg (.global g) W) (h : dequeue M b.reg s W = .ok s') : s'.flag = s.flag := by
  have hW := hg.isGlobal hb.graphs.inv
  refine (dequeue_induction (P := fun s1 : PropState =>
    s1.flag = s.flag ∧ s1.coloredInstSet W = true) h ?_ ?_).1
  · intro s0 hs
    exact ⟨hs.flag, (hs.colored W).mpr (.inr ⟨rfl, by simp [colors, hW.value]⟩)⟩
  · rintro s1 s2 adj I _ _ _ _ he ⟨_, hc⟩
    obtain ⟨i, hi⟩ := he.source hc
    rw [hW.inst] at hi
    cases hi

/-- An iteration that does not fault is safe. -/
theorem safe_of_iterate_ok (hb : Built M env b M.functions)
    (hlinks : ∀ q, s.pdg.linksFrom q = b.pdg.linksFrom q) (hW : W ∈ b.reg.nodes)
    (hq : s.queue = W :: queue) (h : iterate M b.reg s = .ok s') : Safe M env b.reg s W := by
  have hinv := hb.graphs.inv
  let s0 : PropState := { s with queue := queue }
  have hfollows : follows s0.pdg = follows b.pdg := follows_congr hlinks
  have hd : dequeue M b.reg s0 W = .ok s' := by
    unfold iterate at h
    rwa [hq] at h
  refine ⟨fun i g hi hc => ?_, fun g j w hg hw hj hk => ?_⟩
  · have hrep := rep_of_inst hinv hW hi
    have hin := (hrep.mem_list hinv).1
    have hnot : ¬ M.ListedUpTo g (M.parent i) := by
      intro hl
      obtain ⟨root, hroot⟩ := hb.exists_rep (a := .entry g)
        ⟨trivial, hc.mem_functions hin.1 hin.2, hc.2.1⟩
      have hadj : root ∈ follows s0.pdg W := by
        rw [hfollows]
        exact (follows_edge hb hrep).mpr ⟨.entry g, _, hroot, by decide, _, hin.1,
          .callEntry hin.2 hc hl⟩
      obtain ⟨_, I, hI⟩ := dequeue_follows hd root hadj
      rw [(hroot.isEntry hinv).inst] at hI
      cases hI
    refine ⟨hnot, ?_⟩
    have hlink : (env.garbage, DependencyType.dataGeneral.toInt) ∈ s0.pdg.linksFrom (.to W) := by
      rw [show s0.pdg.linksFrom (.to W) = b.pdg.linksFrom (.to W) from hlinks _]
      exact (hb.pdg _ _ _).mpr ⟨_, hin.1, .late hin.2 hc hnot hrep⟩
    obtain ⟨taints, s1, s2, hv⟩ := dequeue_visits hd hlink
    cases hg : env.garbage with
    | null => rfl
    | wild =>
      rw [hg] at hv
      cases hv
    | «to» w => exact absurd hg (env.garbage_ne w)
  · have hjf := (hw.mem_list hinv).1
    have hadj : w ∈ follows s0.pdg W := by
      rw [hfollows]
      exact (follows_edge hb hg).mpr ⟨.inst j, _, hw, by decide, _, hjf.1,
        .globalLoad hj hk (Rep.hasNode hb hg)⟩
    have hpush := (view_dequeue hd).1
    have hmark : (view s').marked w = true := by
      rw [hpush]
      exact Worklist.foldl_push_marked.mpr (.inr hadj)
    have := dequeue_global hb hg hd
    change s'.flag w = true at hmark
    rwa [this] at hmark

/-- A run whose iterations are safe faults for no missing instruction and no unregistered wrapper.
Conversely every iteration that does not fault is safe, however the run ends, and a run that never
faults is safe. -/
theorem safe_run (hstart : start M .fresh (built M env) = .ok (p, senFuncSet)) :
    (SafeRun M env (built M env).reg p → ∀ n e,
      propagate M (built M env).reg n p = .error e → e = .missingTaint) ∧
    (∀ k s W queue s', propagate M (built M env).reg k p = .ok s → s.queue = W :: queue →
      iterate M (built M env).reg s = .ok s' → Safe M env (built M env).reg s W) ∧
    ((∀ n, ∃ s, propagate M (built M env).reg n p = .ok s) →
      SafeRun M env (built M env).reg p) := by
  have hb := built_spec M env
  have hst := start_spec hb hstart
  have hrun : ∀ k s, propagate M (built M env).reg k p = .ok s →
      Running M p (dequeued M (built M env).reg k p) s ∧
        ∀ w, s.flag w = true → ∃ I, w.inst = some I := by
    intro k s hs
    exact ⟨running hst.startable hs,
      flag_induction hst.startable (fun _ _ _ _ I hv _ _ => ⟨I, hv.inst⟩) hs⟩
  have hmem : ∀ k s W queue, propagate M (built M env).reg k p = .ok s → s.queue = W :: queue →
      W ∈ (built M env).reg.nodes := fun k s W queue hs hq =>
    Dequeues.mem_nodes hst.startable hst.queue_mem ⟨s, queue, hs, hq⟩
  have hconverse : ∀ k s W queue s', propagate M (built M env).reg k p = .ok s →
      s.queue = W :: queue → iterate M (built M env).reg s = .ok s' →
      Safe M env (built M env).reg s W := by
    intro k s W queue s' hs hq h
    refine safe_of_iterate_ok hb (fun q => ?_) (hmem k s W queue hs hq) hq h
    rw [← hst.pdg]
    exact (hrun k s hs).1.linksFrom q
  refine ⟨?_, hconverse, ?_⟩
  · intro hsafe n e he
    obtain ⟨k, _, s, hs, hfault⟩ := iterM_eq_error he
    obtain ⟨hr, hflag⟩ := hrun k s hs
    cases hq : s.queue with
    | nil =>
      unfold iterate at hfault
      rw [hq] at hfault
      cases hfault
    | cons W queue =>
      exact (hsafe k s W queue hs hq).iterate_error hb hst hr hflag (hmem k s W queue hs hq) hq
        hfault
  · intro hok k s W queue hs hq
    obtain ⟨s', hs'⟩ := hok (k + 1)
    obtain ⟨s1, h1, h2⟩ := iterM_add_eq_ok.mp hs'
    rw [show iterM (iterate M (built M env).reg) k p = .ok s from hs] at h1
    cases h1
    obtain ⟨s2, h2, _⟩ := iterM_succ_eq_ok.mp h2
    exact hconverse k s W queue s2 hs hq h2

end Safe

/-! ## A call that gets an annotated value -/

namespace Passed

def inst (i : InstId) : Instruction :=
  Option.getD (List.lookup i [
    (0, ⟨"a", 1, .alloca (.other 1), 0⟩),
    (1, ⟨"a1", 1, .bitcast (.inst 0), 0⟩),
    (2, ⟨"", 1, .call (.func 2) [.inst 1] false, 0⟩),
    (3, ⟨"t", 2, .load (.inst 0), 0⟩),
    (4, ⟨"call", 2, .call (.func 1) [.inst 3] false, 0⟩),
    (5, ⟨"", 3, .ret none, 0⟩)])
    ⟨"", 7, .ret none, 1⟩

def M : Module where
  inst := inst
  func f := Option.getD (List.lookup f [
    (0, { name := "main", blocks := [⟨0, [0, 1, 2, 3, 4, 5]⟩] }),
    (1, { name := "use", blocks := [⟨0, [6]⟩] })]) Function.varAnnotation
  functions := [1, 0, 2]
  globals := []
  annotations := []

/-- The same functions, with `use` listed after `main`. -/
def later : Module where
  inst := inst
  func := M.func
  functions := [0, 1, 2]
  globals := []
  annotations := []

end Passed

open Passed in
/-- The ENTRY wrapper of the callee is adjacent to the call and carries no instruction. -/
theorem passed_missing_instruction :
    ∃ x, start M .fresh (built M .straightLine) = .ok x ∧
      ∃ n, propagate M (built M .straightLine).reg n x.1 = .error .nullInstruction := by
  obtain ⟨x, hx, h⟩ := exists_ok (x := start M .fresh (built M .straightLine))
    (P := fun x => (propagate M (built M .straightLine).reg 6 x.1).map (fun _ => ()) =
      .error .nullInstruction) (by decide +kernel)
  refine ⟨x, hx, 6, ?_⟩
  rw [decide_eq_true_eq] at h
  cases hr : propagate M (built M .straightLine).reg 6 x.1 with
  | ok s =>
    rw [hr] at h
    cases h
  | error e =>
    rw [hr] at h
    cases h
    rfl

open Passed in
/-- The callee is listed later and its entry pointer is null, so the call is safe. -/
theorem safe_run_later : later.Calls 4 1 ∧ ∃ x, start later .fresh (built later .straightLine) = .ok x ∧
    ∀ n e, propagate later (built later .straightLine).reg n x.1 = .error e → e = .missingTaint := by
  obtain ⟨x, hx, _⟩ := exists_ok (x := start later .fresh (built later .straightLine))
    (P := fun _ => true) (by decide +kernel)
  refine ⟨⟨by decide, by decide, _, rfl⟩, x, hx,
    (safe_run hx).1 fun k s W queue _ _ => ⟨fun i g _ hc => ⟨?_, rfl⟩, ?_⟩⟩
  · obtain ⟨hint, _, args, hk⟩ := hc
    match i with
    | 2 =>
      cases hk
      cases hint
    | 4 =>
      cases hk
      decide
    | 0 | 1 | 3 | 5 | _ + 6 => cases hk
  · intro g j w _ _ _ hk
    match j with
    | 0 | 1 | 2 | 3 | 4 | 5 | _ + 6 => cases hk

end PDG
end DepTaint
