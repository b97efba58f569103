import DepTaint.Seeds

/-!
# SecondModule

A run of `runOnModule` in a process where the pass has run on another module before.

`runOnModule` ends by clearing `funcMap`, `callMap` and the containers of `InstructionWrapper`; it
does not clear `sensitive_values`, `sensitive_nodes` and `taintMap`. Wrappers are never deleted, so
those of the second run lie elsewhere.

* `Result.statics`: what a run leaves behind.
* `build_withStale`: the construction only carries the stale values along.
* `noLeak_iff`: the second run is that of a fresh process exactly if the first module has no seeds.
-/

namespace DepTaint

/-- The module has no annotated variable, and no global annotated "tainted". -/
def Module.Seedless (M : Module) : Prop :=
  (∀ I, ¬ M.Annotated I) ∧ ∀ g ∈ M.globals, g ∉ PDG.senGlobalSet M

namespace PDG

/-- The statics when `runOnModule` returns. -/
def Result.statics (r : Result) : Statics where
  reg := .empty
  funcMap := .empty
  access := r.built.access
  flag := r.final.flag
  sensitiveValues := r.built.sensitiveValues
  sensitiveNodes := r.sensitiveNodes
  taintMap := r.final.taintMap

/-- `r'` has the seed nodes of `r`, the names of `r` on the instructions of `M`, and its report. -/
structure SameOutcome (M : Module) (r r' : Result) : Prop where
  sensitiveNodes : r'.sensitiveNodes = r.sensitiveNodes
  taintMap : ∀ F ∈ M.functions, ∀ I ∈ M.insts F, r'.final.taintMap I = r.final.taintMap I
  taintValuesFile : r'.taintValuesFile = r.taintValuesFile

/-- From `st` the run on `M` reads no value of an earlier module, and has the outcome of `r`. -/
structure NoLeak (M : Module) (env : Env) (st : Statics) (r : Result) : Prop where
  reads : st.sensitiveValues = [] ∧ st.sensitiveNodes = [] ∧ ∀ I, st.taintMap I = none
  outcome : ∃ r', runOnModule M env st = .ok r' ∧ SameOutcome M r r'

/-! ## Stale values during the construction -/

section Stale

variable (old : InstructionWrapper → Bool) (stale : List Value)

/-- With the wrappers of earlier runs and the values they saved. -/
def Merge.withStale (s : Merge) : Merge :=
  { s with
    access := fun w => s.access w || old w
    sensitiveValues := stale ++ s.sensitiveValues }

def State.withStale (s : State) : State :=
  { s with
    access := fun w => s.access w || old w
    sensitiveValues := stale ++ s.sensitiveValues }

variable {M : Module} {env : Env} {reg : Registry} {funcMap : FuncMap}
  {ddg cdg : DependencyGraph WrapperPtr} {F : FuncId} {w : InstructionWrapper}

theorem processCall_withStale (s : Merge) (called : Value) (args : List Value)
    (isTailCall : Bool) :
    processCall M reg funcMap (s.withStale old stale) w called args isTailCall =
      (processCall M reg funcMap s w called args isTailCall).map
        (Prod.map (Merge.withStale old stale) id) := by
  unfold processCall
  cases getCalledFunction called with
  | none => rfl
  | some callee =>
    dsimp only
    split
    · split
      · simp [Except.map, Merge.withStale]
      · rfl
    · split
      · rfl
      · change (connectCallerAndCallee M reg funcMap s.pdg w callee >>= _) = _
        cases connectCallerAndCallee M reg funcMap s.pdg w callee with
        | error e => rfl
        | ok pdg =>
          have hacc : Function.update (fun w => s.access w || old w) w true =
              fun w' => Function.update s.access w true w' || old w' := by
            funext w'
            by_cases hw' : w' = w <;> simp [hw']
          simp only [Merge.withStale, Except.map, Prod.map, bind, Except.bind, pure, Except.pure,
            hacc, id_eq]

/-- The body of the outer loop, for a wrapper of this run. -/
theorem visitNode_withStale (hw : old w = false) (s : Merge) :
    visitNode M reg funcMap ddg cdg F (s.withStale old stale) w =
      (visitNode M reg funcMap ddg cdg F s w).map (Merge.withStale old stale) := by
  have hacc : (s.withStale old stale).access w = s.access w := by simp [Merge.withStale, hw]
  have hcall : visitCall M reg funcMap (s.withStale old stale) w =
      (visitCall M reg funcMap s w).map (Prod.map (Merge.withStale old stale) id) := by
    unfold visitCall
    cases w.inst with
    | none => rfl
    | some CI =>
      dsimp only
      cases M.kind CI with
      | call called args isTailCall =>
        dsimp only
        rw [hacc]
        split
        · exact processCall_withStale old stale s called args isTailCall
        · rfl
      | _ => rfl
  unfold visitNode
  rw [hcall]
  cases visitCall M reg funcMap s w with
  | error e => rfl
  | ok x =>
    obtain ⟨s1, continues⟩ := x
    cases continues <;> rfl

theorem merge_withStale (hold : ∀ w ∈ reg.funcInstWList F, old w = false) (s : Merge) :
    merge M reg funcMap ddg cdg F (s.withStale old stale) =
      (merge M reg funcMap ddg cdg F s).map (Merge.withStale old stale) :=
  foldlM_comm fun s w hw => visitNode_withStale old stale (hold w hw) s

/-- The loop body for `F`, when no wrapper of `F` lies where an earlier run had one. -/
theorem processFunction_withStale {s s' : State} (h : processFunction M env s F = .ok s')
    (hold : ∀ w ∈ s'.reg.funcInstWList F, old w = false) :
    processFunction M env (s.withStale old stale) F = .ok (s'.withStale old stale) := by
  unfold processFunction at h ⊢
  by_cases hd : (M.func F).isDeclaration = true
  · rw [if_pos hd] at h ⊢
    cases h
    rfl
  · rw [if_neg hd] at h ⊢
    obtain ⟨fw, hfw, h⟩ := bind_eq_ok.mp h
    obtain ⟨c, hc, h⟩ := bind_eq_ok.mp h
    obtain ⟨m, hm, h⟩ := bind_eq_ok.mp h
    cases h
    have hmerge := (merge_withStale old stale hold ⟨s.pdg, s.access, s.sensitiveValues⟩).trans
      (congrArg (Except.map (Merge.withStale old stale)) hm)
    exact bind_eq_ok.mpr ⟨fw, hfw, bind_eq_ok.mpr ⟨c, hc, bind_eq_ok.mpr ⟨_, hmerge, rfl⟩⟩⟩

/-- The construction takes no notice of what earlier runs left. -/
theorem build_withStale (hold : ∀ k w, w.addr = env.heap.addr k → old w = false) :
    build M env (State.fresh.withStale old stale) = .ok ((built M env).withStale old stale) := by
  let init : State := { State.fresh with
    funcMap := .constructFuncMap env.garbage M .empty
    reg := constructGlobals M env .empty }
  obtain ⟨s, hs, _, hstale⟩ := foldlM_invariant (f := processFunction M env) (l := M.functions)
    (s := init) (P := fun pre s => Built M env s pre ∧
      pre.foldlM (processFunction M env) (init.withStale old stale) = .ok (s.withStale old stale))
    ⟨built_nil M env, rfl⟩ (by
      intro pre F post s hx h
      obtain ⟨hb, hstale⟩ := h
      obtain ⟨s', hs', hb'⟩ := processFunction_spec hb hx
      refine ⟨s', hs', hb', ?_⟩
      rw [List.foldlM_append, hstale]
      refine bind_eq_ok.mpr ⟨_, rfl, bind_eq_ok.mpr ⟨_, processFunction_withStale old stale hs'
        fun w hw => ?_, rfl⟩⟩
      obtain ⟨k, _, hk⟩ := hb'.graphs.inv.addr_lt w (hb'.graphs.inv.list_mem F w hw).1
      exact hold k w hk)
  have hbuilt : s = built M env := by
    have he : build M env .fresh = .ok s := hs
    rw [build_eq] at he
    cases he
    rfl
  rw [← hbuilt]
  exact hstale

end Stale

/-! ## The second run -/

section Run

variable {M : Module} {env : Env} {st : Statics} {r : Result} {vs vs' : List Value}
  {w : InstructionWrapper}

/-- With more values saved, a wrapper is a seed at least as often. -/
theorem findSensitiveNodes_sublist (h : vs.Sublist vs') (nodes : List InstructionWrapper) :
    (findSensitiveNodes M vs nodes).Sublist (findSensitiveNodes M vs' nodes) := by
  unfold findSensitiveNodes
  induction nodes with
  | nil => exact .slnil
  | cons w nodes ih =>
    rw [List.flatMap_cons, List.flatMap_cons]
    exact (((h.filter _).map _).append (.refl _)).append ih

/-- A run's seed nodes are those that were left, and its own. -/
theorem sensitiveNodes_eq (hreg : st.reg = .empty) (hmap : st.funcMap = .empty)
    (hold : ∀ k w, w.addr = env.heap.addr k → st.access w = false)
    (h : runOnModule M env st = .ok r) : r.sensitiveNodes = st.sensitiveNodes ++
      findSensitiveNodes M (st.sensitiveValues ++ (built M env).sensitiveValues)
        (built M env).reg.nodes := by
  obtain ⟨s, hs, h⟩ := bind_eq_ok.mp h
  obtain ⟨x, hx, h⟩ := bind_eq_ok.mp h
  obtain ⟨final, _, h⟩ := bind_eq_ok.mp h
  obtain ⟨file, _, h⟩ := bind_eq_ok.mp h
  cases h
  obtain ⟨seeds, _, hp⟩ := bind_eq_ok.mp hx
  cases hp
  have hb := build_withStale st.access st.sensitiveValues hold (M := M)
  rw [hreg, hmap] at hs
  have he : State.fresh.withStale st.access st.sensitiveValues =
      ⟨.empty, .empty, .empty, .empty, .empty, st.access, st.sensitiveValues⟩ := by
    simp [State.withStale, State.fresh]
  rw [he, hs] at hb
  cases hb
  rfl

/-- When only wrappers of earlier runs are left, the run is that of a fresh process. -/
theorem runOnModule_clean {old : InstructionWrapper → Bool}
    (hold : ∀ k w, w.addr = env.heap.addr k → old w = false) :
    runOnModule M env { Statics.fresh with access := old } =
      (runOnModule M env .fresh).map fun r => { r with built := r.built.withStale old [] } := by
  change (build M env (State.fresh.withStale old []) >>= fun s => _) =
    Except.map _ (build M env .fresh >>= fun s => _)
  rw [build_withStale old [] hold, build_eq]
  change (start M .fresh (built M env) >>= fun x => _) =
    Except.map _ (start M .fresh (built M env) >>= fun x => _)
  cases start M .fresh (built M env) with
  | error e => rfl
  | ok x =>
    change (propagate M (built M env).reg (iterations (built M env).reg x.1) x.1 >>= fun x => _) =
      Except.map _
        (propagate M (built M env).reg (iterations (built M env).reg x.1) x.1 >>= fun x => _)
    cases propagate M (built M env).reg (iterations (built M env).reg x.1) x.1 with
    | error e => rfl
    | ok final =>
      change (report M final.funcMap x.2 >>= fun x => _) =
        Except.map _ (report M final.funcMap x.2 >>= fun x => _)
      cases report M final.funcMap x.2 <;> rfl

variable {M' : Module} {env' : Env} {r' : Result} {p : PropState}

theorem Ran.queue_nil_iff (h : Ran M env p r) : p.queue = [] ↔ M.Seedless := by
  constructor
  · intro hq
    have hno : ∀ a, M.HasNode (fun _ => True) a → ¬ M.IsSeed a := by
      intro a ha hs
      obtain ⟨w, hw⟩ := h.built.exists_rep ha
      have hmem := (h.started.queue a w hw).mpr hs
      rw [hq] at hmem
      cases hmem
    exact ⟨fun I hI => hno (.inst I) ⟨_, trivial, hI.hasInst⟩ hI, fun g => hno (.global g)⟩
  · intro hx
    obtain ⟨hinst, hglobal⟩ := hx
    refine List.eq_nil_iff_forall_not_mem.mpr fun w hw => ?_
    obtain ⟨a, ha, hs⟩ := h.started.seed_cases h.built hw
    cases a with
    | inst I => exact hinst I hs
    | entry f => exact hs
    | global g => exact hglobal g (Rep.hasNode h.built ha) hs

/-- A run that does not fault has only saved instructions. -/
theorem mem_sensitiveValues (h : runOnModule M env .fresh = .ok r) {v : Value}
    (hv : v ∈ r.built.sensitiveValues) : ∃ I, v = .inst I ∧ M.Annotated I := by
  obtain ⟨p, hr⟩ := runOnModule_ok h
  obtain ⟨s, _, h⟩ := bind_eq_ok.mp h
  obtain ⟨x, hx, h⟩ := bind_eq_ok.mp h
  obtain ⟨final, _, h⟩ := bind_eq_ok.mp h
  obtain ⟨file, _, h⟩ := bind_eq_ok.mp h
  cases h
  obtain ⟨seeds, hseeds, _⟩ := bind_eq_ok.mp hx
  obtain ⟨s1, s2, hs⟩ := foldlM_visits hseeds hv
  cases v with
  | inst I => exact ⟨I, rfl, (hr.built.sensitiveValues _).mp hv⟩
  | global _ | func _ | other _ => cases hs

/-- A run without seeds only leaves the marks on its wrappers. -/
theorem statics_of_seedless (h : runOnModule M env .fresh = .ok r) (hseed : M.Seedless) :
    r.statics = { Statics.fresh with access := r.built.access } := by
  obtain ⟨p, hr⟩ := runOnModule_ok h
  have hq : p.queue = [] := hr.queue_nil_iff.mpr hseed
  have hfinal : r.final = p := by
    have hrun := hr.run
    rw [propagate_nil M _ hq] at hrun
    cases hrun
    rfl
  have hvalues : r.built.sensitiveValues = [] := by
    refine List.eq_nil_iff_forall_not_mem.mpr fun v hv => ?_
    obtain ⟨I, _, hI⟩ := mem_sensitiveValues h hv
    exact hseed.1 I hI
  have hflag : r.final.flag = fun _ => false := by
    rw [hfinal]
    exact funext hr.started.flag
  have htaint : r.final.taintMap = fun _ => none := by
    funext I
    rw [hfinal, hr.started.taint, if_neg (hseed.1 I)]
  simp only [Result.statics, Statics.fresh, hvalues, hr.sensitiveNodes, hq, hflag, htaint]

/-- The wrappers a run marks lie at its own addresses. -/
theorem access_eq_false (h : runOnModule M env .fresh = .ok r)
    (hheap : ∀ k < r.built.reg.allocated, ∀ k', env.heap.addr k ≠ env'.heap.addr k') (k : Nat)
    (w : InstructionWrapper) (hw : w.addr = env'.heap.addr k) : r.built.access w = false := by
  obtain ⟨p, hr⟩ := runOnModule_ok h
  by_contra hacc
  rw [Bool.not_eq_false] at hacc
  obtain ⟨f, _, hf⟩ := hr.built.access w hacc
  have hinv := hr.built.graphs.inv
  obtain ⟨k', hk', ha⟩ := hinv.addr_lt w (hinv.list_mem f w hf).1
  exact hheap k' hk' k (ha.symm.trans hw)

/-- If the seed nodes of the second run are those of a fresh process, the first module has none. -/
theorem seedless_of_sensitiveNodes (h : runOnModule M env .fresh = .ok r)
    (hheap : ∀ k < r.built.reg.allocated, ∀ k', env.heap.addr k ≠ env'.heap.addr k')
    (h' : runOnModule M' env' .fresh = .ok r') {r2 : Result}
    (h2 : runOnModule M' env' r.statics = .ok r2) (he : r2.sensitiveNodes = r'.sensitiveNodes) :
    M.Seedless := by
  obtain ⟨p, hr⟩ := runOnModule_ok h
  rw [← hr.queue_nil_iff, ← hr.sensitiveNodes]
  rw [sensitiveNodes_eq rfl rfl (access_eq_false h hheap) h2,
    sensitiveNodes_eq rfl rfl (fun _ _ _ => rfl) h'] at he
  have hlen := (findSensitiveNodes_sublist (M := M')
    (List.sublist_append_right r.statics.sensitiveValues (built M' env').sensitiveValues)
    (built M' env').reg.nodes).length_le
  have hlen' := congrArg List.length he
  rw [List.length_append, List.length_append] at hlen'
  refine List.length_eq_zero_iff.mp ?_
  change r.statics.sensitiveNodes.length = 0
  simp only [Statics.fresh, List.nil_append, List.length_nil] at hlen'
  omega

/-- After a run on `M`, whose wrappers stay allocated, the run on `M'` is that of a fresh process
exactly if `M` has no seeds. -/
theorem noLeak_iff (h : runOnModule M env .fresh = .ok r)
    (hheap : ∀ k < r.built.reg.allocated, ∀ k', env.heap.addr k ≠ env'.heap.addr k')
    (h' : runOnModule M' env' .fresh = .ok r') :
    NoLeak M' env' r.statics r' ↔ M.Seedless := by
  constructor
  · intro hx
    obtain ⟨_, r2, h2, hsame⟩ := hx
    exact seedless_of_sensitiveNodes h hheap h' h2 hsame.sensitiveNodes
  · intro hseed
    have hst := statics_of_seedless h hseed
    have h2 := runOnModule_clean (M := M') (access_eq_false h hheap)
    rw [← hst, h'] at h2
    refine ⟨?_, _, h2, rfl, fun _ _ _ _ => rfl, rfl⟩
    rw [hst]
    exact ⟨rfl, rfl, fun _ => rfl⟩

end Run

/-! ## Two modules -/

namespace TwoModules

def inst (i : InstId) : Instruction :=
  Option.getD (List.lookup i [
    (0, ⟨"a", 1, .alloca (.other 1), 0⟩),
    (1, ⟨"a1", 2, .bitcast (.inst 0), 0⟩),
    (2, ⟨"", 2, .call (.func 1) [.inst 1] false, 0⟩),
    (3, ⟨"", 3, .ret none, 0⟩)])
    ⟨"", 1, .ret none, 2⟩

def func (f : FuncId) : Function :=
  Option.getD (List.lookup f [
    (0, { name := "main", blocks := [⟨0, [0, 1, 2, 3]⟩] }),
    (2, { name := "run", blocks := [⟨1, [4]⟩] })]) Function.varAnnotation

/-- Annotates `a`. -/
def M : Module where
  inst := inst
  func := func
  functions := [0, 1]
  globals := []
  annotations := []

/-- Only returns. -/
def M' : Module where
  inst := inst
  func := func
  functions := [2]
  globals := []
  annotations := []

/-- The second run allocates above the first. -/
def env' : Env :=
  { Env.straightLine with
    heap := ⟨fun k => k + 100, fun _ _ h => Nat.add_right_cancel h⟩ }

end TwoModules

open TwoModules in
/-- The second run looks up the function of `a`, which `funcMap` does not hold any more. -/
theorem twoModules_leak : (∀ f ∈ M.functions, f ∉ M'.functions) ∧ ∃ r r',
    runOnModule M .straightLine .fresh = .ok r ∧ runOnModule M' env' .fresh = .ok r' ∧
    (∀ k < r.built.reg.allocated, ∀ k', Env.straightLine.heap.addr k ≠ env'.heap.addr k') ∧
    (∀ r2, runOnModule M' env' r.statics ≠ .ok r2) ∧ ¬ NoLeak M' env' r.statics r' := by
  obtain ⟨r, hr, h⟩ := exists_ok (x := runOnModule M .straightLine .fresh) (P := fun r =>
    r.built.reg.allocated < 100 ∧ (runOnModule M' env' .fresh).toOption.isSome ∧
      (runOnModule M' env' r.statics).toOption.isNone) (by decide +kernel)
  rw [decide_eq_true_eq] at h
  obtain ⟨hlt, h', h2⟩ := h
  have hfault : ∀ r2, runOnModule M' env' r.statics ≠ .ok r2 := by
    intro r2 he
    rw [he] at h2
    cases h2
  cases hr' : runOnModule M' env' .fresh with
  | error e =>
    rw [hr'] at h'
    cases h'
  | ok r' =>
    refine ⟨by decide, r, r', hr, rfl, fun k hk k' => ?_, hfault, ?_⟩
    · change k ≠ k' + 100
      omega
    · intro hx
      obtain ⟨_, r2, he, _⟩ := hx
      exact hfault r2 he

open TwoModules in
/-- In the other order nothing is left for the module that annotates. -/
theorem noLeak_iff_twoModules : ∃ r r', runOnModule M' .straightLine .fresh = .ok r ∧
    runOnModule M env' .fresh = .ok r' ∧ NoLeak M env' r.statics r' := by
  obtain ⟨r, hr, h⟩ := exists_ok (x := runOnModule M' .straightLine .fresh) (P := fun r =>
    r.built.reg.allocated < 100 ∧ (runOnModule M env' .fresh).toOption.isSome) (by decide +kernel)
  rw [decide_eq_true_eq] at h
  obtain ⟨hlt, h'⟩ := h
  cases hr' : runOnModule M env' .fresh with
  | error e =>
    rw [hr'] at h'
    cases h'
  | ok r' =>
    refine ⟨r, r', hr, rfl, (noLeak_iff hr (fun k hk k' => ?_) hr').mpr ⟨?_, by simp [TwoModules.M']⟩⟩
    · change k ≠ k' + 100
      omega
    · intro I hx
      obtain ⟨f, hf, i, hi, hI⟩ := hx
      have hno : ∀ f ∈ M'.functions, ∀ i ∈ M'.insts f, M'.annotates i = [] := by decide
      rw [hno f hf i hi] at hI
      cases hI

end PDG
end DepTaint
