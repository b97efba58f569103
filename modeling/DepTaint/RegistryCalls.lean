import Mathlib.Data.Set.Function
import DepTaint.Base.Worklist
import DepTaint.ControlDependence
import DepTaint.NearestStore

/-!
# RegistryCalls

The static registries and the two graphs under any sequence of calls of the three passes that share
them.

`instMap` is read with `operator[]`, which leaves a null pointer under a key that is missing. A
call is `Safe` when it looks up registered instructions only.

* `RegistryExact`: the registries hold the wrappers of the registered functions and nothing else.
* `registryExact_iff`: they do after a sequence of calls exactly if every call in it was safe.
-/

namespace DepTaint

/-- A call of a pass that fills the registries: `InstructionWrapper::constructInstMap`,
`DataDependencyGraph::runOnFunction` and `ControlDependencyGraph::computeDependencies`. -/
inductive RegistryCall where
  | constructInstMap (f : FuncId)
  | runOnFunction (f : FuncId)
  | computeDependencies (f : FuncId)
deriving DecidableEq

namespace RegistryCall

def function : RegistryCall → FuncId
  | .constructInstMap f | .runOnFunction f | .computeDependencies f => f

/-- The static maps and the two graphs, none of which a pass resets. -/
structure State where
  reg : Registry
  funcMap : FuncMap
  ddg : DependencyGraph WrapperPtr
  cdg : DependencyGraph WrapperPtr

section Model

variable (M : Module) (env : PDG.Env)

/-- The state after `constructFuncMap(M)`. -/
def initial : State where
  reg := .empty
  funcMap := .constructFuncMap env.garbage M .empty
  ddg := .empty
  cdg := .empty

def exec (s : State) : RegistryCall → Except Fault State
  | .constructInstMap f => .ok { s with reg := s.reg.constructInstMap env.heap M f }
  | .runOnFunction f =>
    let d := DDG.runOnFunction env.heap M env.AA ⟨s.reg, s.ddg⟩ f
    .ok { s with reg := d.reg, ddg := d.ddg }
  | .computeDependencies f => do
    let c ← CDG.computeDependencies M (env.PDT f) f env.heap ⟨s.reg, s.funcMap, s.cdg⟩
    .ok { s with reg := c.reg, funcMap := c.funcMap, cdg := c.cdg }

def run (calls : List RegistryCall) : Except Fault State := calls.foldlM (exec M env) (initial M env)

end Model

/-! ## Exact registries -/

/-- `calls` registered the instructions of `f`; `runOnFunction` does so first. -/
def Registers (calls : List RegistryCall) (f : FuncId) : Prop :=
  .constructInstMap f ∈ calls ∨ .runOnFunction f ∈ calls

instance (calls : List RegistryCall) (f : FuncId) : Decidable (Registers calls f) :=
  inferInstanceAs (Decidable (_ ∨ _))

/-- The instructions of the functions registered so far. -/
def registered (M : Module) (calls : List RegistryCall) : Set InstId :=
  {i | ∃ f, Registers calls f ∧ i ∈ M.insts f}

/-- The registries and the graphs hold the wrappers of the functions that `calls` registered. -/
structure RegistryExact (M : Module) (calls : List RegistryCall) (s : State) : Prop where
  keys : ∀ k, (s.reg.instMap k).isSome ↔ ∃ i ∈ registered M calls, k = some i
  bijective : Set.BijOn (fun i => s.reg.instMapAt (some i)) (registered M calls)
    {p | ∃ w ∈ s.reg.nodes, w.type = .inst ∧ p = .to w}
  wrapper : ∀ i w, s.reg.instMap (some i) = some (.to w) → IsInst M i w
  lists : ∀ F ∈ M.functions, ∀ w, w ∈ s.reg.funcInstWList F ↔
    (∃ i ∈ M.insts F, s.reg.instMap (some i) = some (.to w)) ∨ (w ∈ s.reg.nodes ∧ IsEntry F w)
  ddgNodes : ∀ p, s.ddg.HasNode p → ∃ w ∈ s.reg.nodes, p = .to w
  cdgNodes : ∀ p, s.cdg.HasNode p → ∃ w ∈ s.reg.nodes, p = .to w
  ddgLinks : ∀ p q t, s.ddg.HasLink p q t →
    ∃ w w' F, p = .to w ∧ q = .to w' ∧ w.func = some F ∧ w'.func = some F

/-- The CDG pass finds a block on `f` to link: the entry block or the target of a collected edge
is in the post-dominator tree. -/
def Walks (M : Module) (T : PostDominatorTree) (f : FuncId) : Prop :=
  (∃ node, (M.entryBlock f).bind T.getNode = some node) ∨
    ∃ A S node, (A, S) ∈ CDG.edgeSet M T f ∧ T.getNode S = some node

/-- The call looks up no missing key: a store is chosen for every load, and the CDG pass only walks
a function that is registered. -/
def Safe (M : Module) (env : PDG.Env) (calls : List RegistryCall) : RegistryCall → Prop
  | .constructInstMap _ => True
  | .runOnFunction f => ∀ L ∈ M.insts f, (M.kind L).isLoad = true →
    ∃ S, M.MayStore env.AA f L S ∧ DDG.lineDist M L S < DDG.maxLocNum
  | .computeDependencies f => Walks M (env.PDT f) f → Registers calls f

/-- Every call of the sequence is safe after those in front of it. -/
def AllSafe (M : Module) (env : PDG.Env) (calls : List RegistryCall) : Prop :=
  ∀ pre c post, calls = pre ++ c :: post → Safe M env pre c

theorem allSafe_snoc {M : Module} {env : PDG.Env} {calls : List RegistryCall} {c : RegistryCall} :
    AllSafe M env (calls ++ [c]) ↔ AllSafe M env calls ∧ Safe M env calls c := by
  constructor
  · intro h
    refine ⟨fun pre c' post hx => h pre c' (post ++ [c]) (by simp [hx]), h calls c [] rfl⟩
  · rintro ⟨hall, hlast⟩ pre c' post hx
    rcases List.eq_nil_or_concat post with rfl | ⟨post, c'', rfl⟩
    · obtain ⟨rfl, hc⟩ := List.append_inj' hx rfl
      cases hc
      exact hlast
    · have hx' : calls ++ [c] = (pre ++ c' :: post) ++ [c''] := by simpa using hx
      obtain ⟨rfl, _⟩ := List.append_inj' hx' rfl
      exact hall pre c' post rfl

theorem registers_snoc {calls : List RegistryCall} {c : RegistryCall} {f : FuncId} :
    Registers (calls ++ [c]) f ↔
      Registers calls f ∨ c = .constructInstMap f ∨ c = .runOnFunction f := by
  simp only [Registers, List.mem_append, List.mem_singleton, eq_comm (b := c)]
  tauto

section Run

variable {M : Module} {env : PDG.Env} {calls : List RegistryCall} {f : FuncId} {s s' : State}

/-- What a run of safe calls keeps. -/
structure Sound (M : Module) (env : PDG.Env) (calls : List RegistryCall) (s : State) : Prop where
  inv : s.reg.Inv env.heap M
  keys : ∀ k, (s.reg.instMap k).isSome ↔ ∃ i ∈ registered M calls, k = some i
  ddgNodes : ∀ p, s.ddg.HasNode p → ∃ w ∈ s.reg.nodes, p = .to w
  cdgNodes : ∀ p, s.cdg.HasNode p → ∃ w ∈ s.reg.nodes, p = .to w
  ddgLinks : ∀ p q t, s.ddg.HasLink p q t →
    ∃ w w' F, p = .to w ∧ q = .to w' ∧ w.func = some F ∧ w'.func = some F

theorem Sound.exact (h : Sound M env calls s) : RegistryExact M calls s where
  keys := h.keys
  bijective := by
    have hkey : ∀ i ∈ registered M calls, ∃ w, s.reg.instMap (some i) = some (.to w) := by
      intro i hi
      obtain ⟨p, hp⟩ := Option.isSome_iff_exists.mp ((h.keys (some i)).mpr ⟨i, hi, rfl⟩)
      obtain ⟨_, w, rfl, _⟩ := h.inv.instMap_inst i p hp
      exact ⟨w, hp⟩
    refine ⟨fun i hi => ?_, fun i hi j hj he => ?_, fun p hp => ?_⟩
    · obtain ⟨w, hw⟩ := hkey i hi
      exact ⟨w, h.inv.mem_nodes hw, (h.inv.isInst hw).type, Registry.instMapAt_eq_to.mpr hw⟩
    · obtain ⟨w, hw⟩ := hkey i hi
      have hj' := Registry.instMapAt_eq_to.mp (he.symm.trans (Registry.instMapAt_eq_to.mpr hw))
      exact Option.some.inj ((h.inv.isInst hw).inst.symm.trans (h.inv.isInst hj').inst)
    · obtain ⟨w, hw, htype, rfl⟩ := hp
      rcases h.inv.nodes_mem w hw with hg | ⟨F, hF⟩
      · obtain ⟨_, g, hg⟩ := h.inv.global_mem w hg
        cases hg.type.symm.trans htype
      · obtain ⟨_, ⟨i, hi, _⟩ | he⟩ := h.inv.list_mem F w hF
        · obtain ⟨j, hj, hij⟩ := (h.keys (some i)).mp (by rw [hi]; rfl)
          cases hij
          exact ⟨i, hj, Registry.instMapAt_eq_to.mpr hi⟩
        · cases he.type.symm.trans htype
  wrapper _ _ hw := h.inv.isInst hw
  lists := by
    intro F hF w
    constructor
    · intro hw
      obtain ⟨hn, ⟨i, hi, hp⟩ | he⟩ := h.inv.list_mem F w hw
      · obtain ⟨⟨_, hmem⟩, _⟩ := h.inv.instMap_inst i _ hi
        exact .inl ⟨i, hp ▸ hmem, hi⟩
      · exact .inr ⟨hn, he⟩
    · rintro (⟨i, hi, hw⟩ | ⟨hn, he⟩)
      · obtain ⟨_, w', hw', _, hmem⟩ := h.inv.instMap_inst i _ hw
        cases hw'
        rwa [Module.HasInst.parent ⟨hF, hi⟩] at hmem
      · rcases h.inv.nodes_mem w hn with hg | ⟨g, hg⟩
        · obtain ⟨_, g, hg⟩ := h.inv.global_mem w hg
          cases hg.type.symm.trans he.type
        · obtain ⟨_, ⟨i, hi, _⟩ | he'⟩ := h.inv.list_mem g w hg
          · cases (h.inv.isInst hi).type.symm.trans he.type
          · cases he.func.symm.trans he'.func
            exact hg
  ddgNodes := h.ddgNodes
  cdgNodes := h.cdgNodes
  ddgLinks := h.ddgLinks

/-! ## Safe calls -/

theorem registered_snoc {c : RegistryCall} (hc : c = .constructInstMap f ∨ c = .runOnFunction f) :
    registered M (calls ++ [c]) = registered M calls ∪ {i | i ∈ M.insts f} := by
  ext i
  simp only [registered, Set.mem_union, Set.mem_ofPred_eq, registers_snoc]
  constructor
  · intro h
    obtain ⟨g, hg | rfl | rfl, hi⟩ := h
    · exact .inl ⟨g, hg, hi⟩
    · rcases hc with hc | hc <;> cases hc
      exact .inr hi
    · rcases hc with hc | hc <;> cases hc
      exact .inr hi
  · rintro (⟨g, hg, hi⟩ | hi)
    · exact ⟨g, .inl hg, hi⟩
    · exact ⟨f, .inr hc, hi⟩

/-- The keys after `constructInstMap(f)`. -/
theorem constructInstMap_keys {reg : Registry} {K : Set InstId} (h : reg.Inv env.heap M)
    (hf : f ∈ M.functions) (hkeys : ∀ k, (reg.instMap k).isSome ↔ ∃ i ∈ K, k = some i)
    (k : Option InstId) : ((reg.constructInstMap env.heap M f).instMap k).isSome ↔
      ∃ i ∈ K ∪ {i | i ∈ M.insts f}, k = some i := by
  obtain ⟨_, hgrow, hreg⟩ := Registry.constructInstMap_spec h hf
  cases k with
  | none =>
    rw [Registry.constructInstMap_none, hkeys]
    simp
  | some i =>
    by_cases hi : i ∈ M.insts f
    · obtain ⟨w, hw⟩ := hreg i hi
      simp [hw, hi]
    · rw [hgrow.instMap_frame i hi, hkeys]
      simp [hi]

/-- After `constructInstMap(f)` the wrappers of `f` are registered. -/
theorem exists_registered {R : Registry} (hinv : R.Inv env.heap M) (hreg : R.Registered M f)
    {i : InstId} (hi : i ∈ M.insts f) : ∃ w ∈ R.nodes, R.instMap (some i) = some (.to w) := by
  obtain ⟨w, hw⟩ := hreg i hi
  exact ⟨w, hinv.mem_nodes hw, hw⟩

theorem Sound.constructInstMap (h : Sound M env calls s) (hf : f ∈ M.functions) :
    Sound M env (calls ++ [.constructInstMap f])
      { s with reg := s.reg.constructInstMap env.heap M f } := by
  obtain ⟨hinv, hgrow, hreg⟩ := Registry.constructInstMap_spec h.inv hf
  exact
    { inv := hinv
      keys := by
        rw [registered_snoc (.inl rfl)]
        exact constructInstMap_keys h.inv hf h.keys
      ddgNodes := by
        intro p hp
        obtain ⟨w, hw, he⟩ := h.ddgNodes p hp
        exact ⟨w, hgrow.nodes_mono w hw, he⟩
      cdgNodes := by
        intro p hp
        obtain ⟨w, hw, he⟩ := h.cdgNodes p hp
        exact ⟨w, hgrow.nodes_mono w hw, he⟩
      ddgLinks := h.ddgLinks }

/-- The DDG pass on a registered function whose loads all find a store. -/
structure DDGKeeps (R : Registry) (d : DDG.State) : Prop where
  reg : d.reg = R
  nodes : ∀ p, d.ddg.HasNode p → ∃ w ∈ R.nodes, p = .to w

theorem DDGKeeps.addLink {R : Registry} {d : DDG.State} (h : DDGKeeps R d)
    (hR : ∀ i ∈ M.insts f, ∃ w ∈ R.nodes, R.instMap (some i) = some (.to w)) {i j : InstId}
    (hi : i ∈ M.insts f) (hj : j ∈ M.insts f) (t : DependencyType) :
    DDGKeeps R (d.addLink (some i) (some j) t) := by
  obtain ⟨w, hw, hiw⟩ := hR i hi
  obtain ⟨w', hw', hjw⟩ := hR j hj
  obtain ⟨rfl, hn⟩ := h
  refine ⟨?_, fun p hp => ?_⟩
  · rw [DDG.State.addLink, Registry.touch_of_some hiw, Registry.touch_of_some hjw]
  · simp only [DDG.State.addLink, Registry.instMapAt_touch,
      DependencyGraph.hasNode_addDependency, Registry.instMapAt_eq_to.mpr hiw,
      Registry.instMapAt_eq_to.mpr hjw] at hp
    rcases hp with hp | rfl | rfl
    · exact hn p hp
    · exact ⟨w, hw, rfl⟩
    · exact ⟨w', hw', rfl⟩

/-- The DDG pass chooses a store of `f` for a load that has one close enough. -/
theorem exists_candidate {L S : InstId} (hS : M.MayStore env.AA f L S)
    (hlt : DDG.lineDist M L S < DDG.maxLocNum) :
    ∃ S ∈ M.insts f, DDG.candidateSI M env.AA f L = some S := by
  obtain ⟨m, hm⟩ := exists_isFirstMin (DDG.mem_getDependencyInFunction.mpr hS) hlt
  have hc := DDG.candidateSI_eq_some.mpr hm
  exact ⟨m, (DDG.candidateSI_mem hc).1, hc⟩

/-- Its links then join wrappers of `f`. -/
theorem ddgLink_function {R : Registry} (hinv : R.Inv env.heap M) (hf : f ∈ M.functions)
    (hreg : R.Registered M f) (hsafe : Safe M env calls (.runOnFunction f)) {p q : WrapperPtr}
    {t : Int} (hl : DDG.Link M env.AA f R.instMapAt p q t) :
    ∃ w w' F, p = .to w ∧ q = .to w' ∧ w.func = some F ∧ w'.func = some F := by
  have hfunc : ∀ i ∈ M.insts f, ∃ w, R.instMapAt (some i) = .to w ∧ w.func = some f := by
    intro i hi
    obtain ⟨w, hw⟩ := hreg i hi
    refine ⟨w, Registry.instMapAt_eq_to.mpr hw, ?_⟩
    rw [(hinv.isInst hw).func, Module.HasInst.parent ⟨hf, hi⟩]
  cases hl with
  | @raw L hL hload =>
    obtain ⟨S, hS, hlt⟩ := hsafe L hL hload
    obtain ⟨S, hS, hc⟩ := exists_candidate hS hlt
    obtain ⟨w, hw, hwf⟩ := hfunc S hS
    obtain ⟨w', hw', hwf'⟩ := hfunc L hL
    exact ⟨w, w', f, hc ▸ hw, hw', hwf, hwf'⟩
  | @defUse i j hi hj =>
    obtain ⟨w, hw, hwf⟩ := hfunc j (M.operands_ok f hf i hi _ hj).1
    obtain ⟨w', hw', hwf'⟩ := hfunc i hi
    exact ⟨w, w', f, hw, hw', hwf, hwf'⟩

theorem Sound.ddgKeeps (h : Sound M env calls s) (hf : f ∈ M.functions)
    (hsafe : Safe M env calls (.runOnFunction f)) :
    DDGKeeps (s.reg.constructInstMap env.heap M f)
      (DDG.runOnFunction env.heap M env.AA ⟨s.reg, s.ddg⟩ f) := by
  obtain ⟨hinv, hgrow, hreg⟩ := Registry.constructInstMap_spec h.inv hf
  have hR := fun i hi => exists_registered hinv hreg (i := i) hi
  refine DDG.runOnFunction_preserves ⟨rfl, fun p hp => ?_⟩ ?_ ?_ ?_
  · obtain ⟨w, hw, he⟩ := h.ddgNodes p hp
    exact ⟨w, hgrow.nodes_mono w hw, he⟩
  · intro i hi d hx
    obtain ⟨hd, hn⟩ := hx
    obtain ⟨w, hw, hiw⟩ := hR i hi
    rw [hd, Registry.touch_of_some hiw, Registry.instMapAt_eq_to.mpr hiw]
    refine ⟨rfl, fun p hp => ?_⟩
    rcases DependencyGraph.hasNode_getNodeByData.mp hp with hp | rfl
    · exact hn p hp
    · exact ⟨w, hw, rfl⟩
  · intro L hL hload d hd
    obtain ⟨S, hS, hlt⟩ := hsafe L hL hload
    obtain ⟨S, hS, hc⟩ := exists_candidate hS hlt
    rw [hc]
    exact hd.addLink hR hS hL _
  · intro i hi j hj d hd
    exact hd.addLink hR (M.operands_ok f hf i hi _ hj).1 hi _

theorem Sound.runOnFunction (h : Sound M env calls s) (hf : f ∈ M.functions)
    (hsafe : Safe M env calls (.runOnFunction f)) (hs : exec M env s (.runOnFunction f) = .ok s') :
    Sound M env (calls ++ [.runOnFunction f]) s' := by
  cases hs
  obtain ⟨hinv, hgrow, hreg⟩ := Registry.constructInstMap_spec h.inv hf
  have hk := h.ddgKeeps hf hsafe
  obtain ⟨_, hlinks⟩ := DDG.runOnFunction_spec (s := ⟨s.reg, s.ddg⟩) env.AA h.inv hf
  exact
    { inv := by
        rw [hk.reg]
        exact hinv
      keys := by
        rw [registered_snoc (.inr rfl), hk.reg]
        exact constructInstMap_keys h.inv hf h.keys
      ddgNodes := by
        rw [hk.reg]
        exact hk.nodes
      cdgNodes := by
        intro p hp
        obtain ⟨w, hw, he⟩ := h.cdgNodes p hp
        rw [hk.reg]
        exact ⟨w, hgrow.nodes_mono w hw, he⟩
      ddgLinks := by
        intro p q t hl
        rcases (hlinks p q t).mp hl with hl | hl
        · exact h.ddgLinks p q t hl
        · exact ddgLink_function hinv hf hreg hsafe hl }

/-- What the CDG pass keeps on a registered function. -/
structure CDGKeeps (R : Registry) (c : CDG.State) : Prop where
  reg : c.reg = R
  nodes : ∀ p, c.cdg.HasNode p → ∃ w ∈ R.nodes, p = .to w

theorem CDGKeeps.addBlock {R : Registry} {c : CDG.State} (h : CDGKeeps R c)
    (hR : ∀ i ∈ M.insts f, ∃ w ∈ R.nodes, R.instMap (some i) = some (.to w))
    {src : InstructionWrapper} (hsrc : src ∈ R.nodes) (t : Int) (b : BlockId) :
    CDGKeeps R (CDG.addBlock M f (.to src) t c b) := by
  refine foldl_preserves h fun c i hi hc => ?_
  obtain ⟨w, hw, hiw⟩ := hR i (CDG.mem_insts_of_block hi)
  obtain ⟨rfl, hn⟩ := hc
  refine ⟨Registry.touch_of_some hiw, fun p hp => ?_⟩
  rw [CDG.addInst, Registry.instMapAt_eq_to.mpr hiw] at hp
  rcases DependencyGraph.hasNode_addDependency.mp hp with hp | rfl | rfl
  · exact hn p hp
  · exact ⟨src, hsrc, rfl⟩
  · exact ⟨w, hw, rfl⟩

theorem CDGKeeps.addBlocks {R : Registry} {c : CDG.State} (h : CDGKeeps R c)
    (hR : ∀ i ∈ M.insts f, ∃ w ∈ R.nodes, R.instMap (some i) = some (.to w)) {A : BlockId}
    {i : InstId} (hi : M.terminator f A = some i) (t : Int) (b : BlockId) :
    CDGKeeps R (CDG.addBlocks M f A t c b) := by
  obtain ⟨w, hw, hiw⟩ := hR i (CDG.mem_insts_of_terminator hi)
  obtain ⟨rfl, hn⟩ := h
  rw [CDG.addBlocks, hi, Registry.touch_of_some hiw, Registry.instMapAt_eq_to.mpr hiw]
  exact CDGKeeps.addBlock ⟨rfl, hn⟩ hR hw t b

theorem exec_computeDependencies (hs : exec M env s (.computeDependencies f) = .ok s') :
    ∃ c, CDG.computeDependencies M (env.PDT f) f env.heap ⟨s.reg, s.funcMap, s.cdg⟩ = .ok c ∧
      s' = { s with reg := c.reg, funcMap := c.funcMap, cdg := c.cdg } := by
  obtain ⟨c, hc, hs⟩ := bind_eq_ok.mp hs
  cases hs
  exact ⟨c, hc, rfl⟩

theorem registered_computeDependencies :
    registered M (calls ++ [.computeDependencies f]) = registered M calls := by
  simp [registered, registers_snoc]

theorem Sound.computeDependencies (h : Sound M env calls s)
    (hsafe : Safe M env calls (.computeDependencies f))
    (hs : exec M env s (.computeDependencies f) = .ok s') :
    Sound M env (calls ++ [.computeDependencies f]) s' := by
  obtain ⟨c, hc, rfl⟩ := exec_computeDependencies hs
  let root := s.reg.entryWrapper env.heap f
  have hgrow : Registry.Grows M f s.reg (s.reg.insertEntry f root) := Registry.grows_insertEntry
  have hroot : root ∈ (s.reg.insertEntry f root).nodes := Registry.mem_insertNode.mpr (.inl rfl)
  have hR : Walks M (env.PDT f) f → ∀ i ∈ M.insts f, ∃ w ∈ (s.reg.insertEntry f root).nodes,
      (s.reg.insertEntry f root).instMap (some i) = some (.to w) := by
    intro hw i hi
    obtain ⟨p, hp⟩ :=
      Option.isSome_iff_exists.mp ((h.keys (some i)).mpr ⟨i, ⟨f, hsafe hw, hi⟩, rfl⟩)
    obtain ⟨_, w, rfl, _⟩ := h.inv.instMap_inst i p hp
    exact ⟨w, hgrow.nodes_mono w (h.inv.mem_nodes hp), hp⟩
  have hk : CDGKeeps (s.reg.insertEntry f root) c := by
    refine CDG.computeDependencies_preserves hc (fun _ _ => ⟨rfl, fun p hp => ?_⟩) ?_ ?_
    · obtain ⟨w, hw, he⟩ := h.cdgNodes p hp
      exact ⟨w, hgrow.nodes_mono w hw, he⟩
    · intro node hn b c hc
      exact hc.addBlock (hR (.inl ⟨node, hn⟩)) hroot _ b
    · intro A S node hE hn b c hc
      obtain ⟨i, hi⟩ := Module.terminator_of_succ (CDG.mem_edgeSet.mp hE).2.1
      exact hc.addBlocks (hR (.inr ⟨A, S, node, hE, hn⟩)) hi _ b
  exact
    { inv := by
        rw [hk.reg]
        exact h.inv.insertEntry
      keys := by
        rw [registered_computeDependencies, hk.reg]
        exact h.keys
      ddgNodes := by
        intro p hp
        obtain ⟨w, hw, he⟩ := h.ddgNodes p hp
        rw [hk.reg]
        exact ⟨w, hgrow.nodes_mono w hw, he⟩
      cdgNodes := by
        rw [hk.reg]
        exact hk.nodes
      ddgLinks := h.ddgLinks }

/-- A safe call keeps what a run of safe calls keeps. -/
theorem Sound.exec {c : RegistryCall} (h : Sound M env calls s) (hf : c.function ∈ M.functions)
    (hsafe : Safe M env calls c) (hs : exec M env s c = .ok s') : Sound M env (calls ++ [c]) s' := by
  cases c with
  | constructInstMap f =>
    cases hs
    exact h.constructInstMap hf
  | runOnFunction f => exact h.runOnFunction hf hsafe hs
  | computeDependencies f => exact h.computeDependencies hsafe hs

/-! ## Unsafe calls -/

/-- A key without a wrapper. -/
def Poisoned (s : State) : Prop := ∃ k, s.reg.instMap k = some .null

/-- Every key of an exact registry has a wrapper. -/
theorem RegistryExact.not_poisoned (h : RegistryExact M calls s) : ¬ Poisoned s := by
  intro hx
  obtain ⟨k, hk⟩ := hx
  obtain ⟨i, hi, rfl⟩ := (h.keys k).mp (by rw [hk]; rfl)
  obtain ⟨w, _, _, hw⟩ := h.bijective.mapsTo hi
  rw [Registry.instMapAt_eq_to, hk] at hw
  cases hw

/-- No call removes a key. -/
theorem exec_mono {c : RegistryCall} (hs : exec M env s c = .ok s') {k : Option InstId}
    {p : WrapperPtr} (h : s.reg.instMap k = some p) : s'.reg.instMap k = some p := by
  cases c with
  | constructInstMap f =>
    cases hs
    exact Registry.constructInstMap_mono h
  | runOnFunction f =>
    cases hs
    exact DDG.runOnFunction_preserves (P := fun d : DDG.State => d.reg.instMap k = some p)
      (Registry.constructInstMap_mono h) (fun _ _ _ => Registry.touch_mono)
      (fun _ _ _ _ hd => Registry.touch_mono (Registry.touch_mono hd))
      fun _ _ _ _ _ hd => Registry.touch_mono (Registry.touch_mono hd)
  | computeDependencies f =>
    obtain ⟨c, hc, rfl⟩ := exec_computeDependencies hs
    have hblock : ∀ src t (c : CDG.State) b, c.reg.instMap k = some p →
        (CDG.addBlock M f src t c b).reg.instMap k = some p := fun src t c b hc =>
      foldl_preserves (P := fun c : CDG.State => c.reg.instMap k = some p) hc
        fun _ _ _ => Registry.touch_mono
    exact CDG.computeDependencies_preserves (P := fun c : CDG.State => c.reg.instMap k = some p)
      hc (fun _ _ => h) (fun _ _ b c => hblock _ _ c b)
      fun _ _ _ _ _ b c hc => hblock _ _ _ b (Registry.touch_mono hc)

/-- A load for which no store is chosen looks up the null key. -/
theorem isSome_visit {d : DDG.State} {L : InstId} (hload : (M.kind L).isLoad = true)
    (hc : DDG.candidateSI M env.AA f L = none) :
    ((DDG.visit M env.AA f d L).reg.instMap none).isSome := by
  unfold DDG.visit
  extract_lets d1 d2
  have h2 : (d2.reg.instMap none).isSome := by
    simp only [d2, if_pos hload, hc]
    exact Registry.isSome_touch_of (Registry.isSome_touch _ _)
  refine foldl_preserves (P := fun d : DDG.State => (d.reg.instMap none).isSome) h2 ?_
  intro d v _ hd
  cases v with
  | inst j => exact Registry.isSome_touch_of (Registry.isSome_touch_of hd)
  | global _ | func _ | other _ => exact hd

theorem poisoned_runOnFunction (h : Sound M env calls s) (hf : f ∈ M.functions)
    (hbad : ¬ Safe M env calls (.runOnFunction f))
    (hs : exec M env s (.runOnFunction f) = .ok s') : Poisoned s' := by
  cases hs
  obtain ⟨L, hL, hload, hno⟩ : ∃ L ∈ M.insts f, (M.kind L).isLoad = true ∧
      ¬ ∃ S, M.MayStore env.AA f L S ∧ DDG.lineDist M L S < DDG.maxLocNum := by
    unfold Safe at hbad
    push Not at hbad ⊢
    exact hbad
  have hc : DDG.candidateSI M env.AA f L = none := by
    refine Option.eq_none_iff_forall_ne_some.mpr fun S hS => hno ?_
    obtain ⟨hlt, hmay, _⟩ := PDG.candidateSI_eq_some_iff.mp hS
    exact ⟨S, hmay, hlt⟩
  have hkey : ((DDG.runOnFunction env.heap M env.AA ⟨s.reg, s.ddg⟩ f).reg.instMap none).isSome :=
    foldl_establishes (Q := fun d : DDG.State => (d.reg.instMap none).isSome) hL
      (fun d => isSome_visit hload hc) fun d i hd => DDG.visit_preserves hd
        (fun _ => Registry.isSome_touch_of)
        (fun _ _ hd => Registry.isSome_touch_of (Registry.isSome_touch_of hd))
        fun _ _ _ hd => Registry.isSome_touch_of (Registry.isSome_touch_of hd)
  obtain ⟨p, hp⟩ := Option.isSome_iff_exists.mp hkey
  have hinv := (DDG.runOnFunction_spec (s := ⟨s.reg, s.ddg⟩) env.AA h.inv hf).1.inv
  exact ⟨none, hinv.instMap_null p hp ▸ hp⟩

/-- The loops over the instructions of a block look each of them up. -/
theorem isSome_addBlock {src : WrapperPtr} {t : Int} {c : CDG.State} {b : BlockId} {i : InstId}
    (hi : i ∈ M.blockInsts f b) :
    ((CDG.addBlock M f src t c b).reg.instMap (some i)).isSome :=
  foldl_establishes (Q := fun c : CDG.State => (c.reg.instMap (some i)).isSome) hi
    (fun _ => Registry.isSome_touch _ _) fun _ _ => Registry.isSome_touch_of

theorem isSome_addBlock_of {src : WrapperPtr} {t : Int} {c : CDG.State} {b : BlockId}
    {k : Option InstId} (h : (c.reg.instMap k).isSome) :
    ((CDG.addBlock M f src t c b).reg.instMap k).isSome :=
  foldl_preserves (P := fun c : CDG.State => (c.reg.instMap k).isSome) h
    fun _ _ _ => Registry.isSome_touch_of

theorem isSome_addBlocks_of {A : BlockId} {t : Int} {c : CDG.State} {b : BlockId}
    {k : Option InstId} (h : (c.reg.instMap k).isSome) :
    ((CDG.addBlocks M f A t c b).reg.instMap k).isSome :=
  isSome_addBlock_of (Registry.isSome_touch_of h)

/-- An edge whose target is in the tree makes the pass look up the instructions of the target. -/
theorem isSome_addEdge {A S : BlockId} {node : DomTreeNode} {c c' : CDG.State} {i : InstId}
    (hE : (A, S) ∈ CDG.edgeSet M (env.PDT f) f) (hn : (env.PDT f).getNode S = some node)
    (hi : i ∈ M.blockInsts f S) (hc : CDG.addEdge M (env.PDT f) f c (A, S) = .ok c') :
    (c'.reg.instMap (some i)).isSome := by
  obtain ⟨_, _, hd⟩ := CDG.mem_edgeSet.mp hE
  obtain ⟨nA, hA, hnot⟩ := PostDominatorTree.exists_node_of_not_dominates hd
  obtain ⟨bs, hbs, hmem⟩ := CDG.climb_spec hd hA hn
  have hS : S ∈ bs := (hmem S).mpr
    ⟨node, node.self_mem_chain, hnot node hn, (env.PDT f).getBlock_eq S node hn⟩
  simp only [CDG.addEdge, hn, hbs] at hc
  cases hc
  exact foldl_establishes (Q := fun c : CDG.State => (c.reg.instMap (some i)).isSome) hS
    (fun _ => isSome_addBlock hi) fun _ _ => isSome_addBlocks_of

/-- A pass that walks looks up an instruction of the function. -/
theorem exists_isSome {c c' : CDG.State} (hf : f ∈ M.functions) (hw : Walks M (env.PDT f) f)
    (hc : CDG.computeDependencies M (env.PDT f) f env.heap c = .ok c') :
    ∃ i ∈ M.insts f, (c'.reg.instMap (some i)).isSome := by
  have hkeep : ∀ i (c1 : CDG.State) E c2, CDG.addEdge M (env.PDT f) f c1 E = .ok c2 →
      (c1.reg.instMap (some i)).isSome → (c2.reg.instMap (some i)).isSome := by
    rintro i c1 ⟨A, S⟩ c2 hc1 h1
    exact CDG.addEdge_preserves (P := fun c : CDG.State => (c.reg.instMap (some i)).isSome)
      hc1 h1 fun _ _ _ _ => isSome_addBlocks_of
  unfold CDG.computeDependencies at hc
  extract_lets root at hc
  cases hfw : c.funcMap.get f with
  | error e =>
    rw [hfw] at hc
    cases hc
  | ok fw =>
    rw [hfw] at hc
    change (CDG.edgeSet M (env.PDT f) f).foldlM _ _ = _ at hc
    rcases hw with ⟨node, hn⟩ | ⟨A, S, node, hE, hn⟩
    · rw [hn] at hc
      obtain ⟨E, hE, hnode⟩ := Option.bind_eq_some_iff.mp hn
      obtain ⟨i, hi⟩ := M.exists_mem_blockInsts hf (List.mem_of_head? hE)
      have hwalk : E ∈ CDG.rootWalk node := CDG.mem_rootWalk.mpr
        ⟨node, node.self_mem_chain, (env.PDT f).getBlock_eq E node hnode⟩
      refine ⟨i, CDG.mem_insts_of_block hi, foldlM_preserves
        (P := fun c : CDG.State => (c.reg.instMap (some i)).isSome) hc ?_
        fun c1 E c2 _ => hkeep i c1 E c2⟩
      exact foldl_establishes (Q := fun c : CDG.State => (c.reg.instMap (some i)).isSome) hwalk
        (fun _ => isSome_addBlock hi) fun _ _ => isSome_addBlock_of
    · obtain ⟨i, hi⟩ := M.exists_mem_blockInsts hf
        (Module.succs_mem hf (CDG.mem_edgeSet.mp hE).2.1)
      exact ⟨i, CDG.mem_insts_of_block hi, foldlM_establishes
        (Q := fun c : CDG.State => (c.reg.instMap (some i)).isSome) hc hE
        (fun c1 c2 => isSome_addEdge hE hn hi) fun c1 E c2 => hkeep i c1 E c2⟩

/-- A walk over a function that is not registered leaves null pointers under its instructions. -/
theorem poisoned_computeDependencies (h : Sound M env calls s)
    (hcalls : ∀ c ∈ calls, c.function ∈ M.functions) (hf : f ∈ M.functions)
    (hbad : ¬ Safe M env calls (.computeDependencies f))
    (hs : exec M env s (.computeDependencies f) = .ok s') : Poisoned s' := by
  obtain ⟨c, hc, rfl⟩ := exec_computeDependencies hs
  obtain ⟨hw, hnot⟩ := Classical.not_imp.mp hbad
  obtain ⟨i, hi, hsome⟩ := exists_isSome hf hw hc
  obtain ⟨p, hp⟩ := Option.isSome_iff_exists.mp hsome
  -- `i` was no key before, and the pass creates no wrapper for it
  have hkey : s.reg.instMap (some i) = none := by
    rw [← Option.not_isSome_iff_eq_none, h.keys]
    intro hx
    obtain ⟨j, ⟨g, hg, hig⟩, hij⟩ := hx
    cases hij
    have hgf : g ∈ M.functions := hg.elim (hcalls _) (hcalls _)
    exact hnot (Module.HasInst.unique ⟨hgf, hig⟩ ⟨hf, hi⟩ ▸ hg)
  have hblock : ∀ src t (c : CDG.State) b k,
      (CDG.addBlock M f src t c b).reg.instMapAt k = c.reg.instMapAt k := fun src t c b k =>
    foldl_preserves (P := fun c' : CDG.State => c'.reg.instMapAt k = c.reg.instMapAt k) rfl
      fun c' j _ h' => (Registry.instMapAt_touch _ _).trans h'
  have hat : c.reg.instMapAt (some i) = s.reg.instMapAt (some i) :=
    CDG.computeDependencies_preserves
      (P := fun c : CDG.State => c.reg.instMapAt (some i) = s.reg.instMapAt (some i)) hc
      (fun _ _ => rfl) (fun _ _ b c1 h1 => (hblock _ _ c1 b _).trans h1)
      fun _ _ _ _ _ b c1 h1 => (hblock _ _ _ b _).trans ((Registry.instMapAt_touch _ _).trans h1)
  refine ⟨some i, ?_⟩
  rw [Registry.instMapAt, Registry.instMapAt, hp, hkey] at hat
  have hnull : p = .null := hat
  exact hnull ▸ hp

theorem poisoned_exec {c : RegistryCall} (h : Sound M env calls s)
    (hcalls : ∀ c ∈ calls, c.function ∈ M.functions) (hf : c.function ∈ M.functions)
    (hbad : ¬ Safe M env calls c) (hs : exec M env s c = .ok s') : Poisoned s' := by
  cases c with
  | constructInstMap f => exact absurd trivial hbad
  | runOnFunction f => exact poisoned_runOnFunction h hf hbad hs
  | computeDependencies f => exact poisoned_computeDependencies h hcalls hf hbad hs

/-! ## Runs -/

variable (env) in
/-- A call does not fault, and keeps the function wrappers. -/
theorem exec_ok {c : RegistryCall} (hf : c.function ∈ M.functions)
    (hm : ∀ f ∈ M.functions, ∃ fw, s.funcMap f = some fw) :
    ∃ s', exec M env s c = .ok s' ∧ ∀ f ∈ M.functions, ∃ fw, s'.funcMap f = some fw := by
  cases c with
  | constructInstMap f | runOnFunction f => exact ⟨_, rfl, hm⟩
  | computeDependencies f =>
    obtain ⟨fw, hfw⟩ := hm f hf
    obtain ⟨c, hc⟩ := CDG.computeDependencies_ok env.heap (M := M) (T := env.PDT f)
      (s := ⟨s.reg, s.funcMap, s.cdg⟩) hfw
    refine ⟨{ s with reg := c.reg, funcMap := c.funcMap, cdg := c.cdg }, ?_, ?_⟩
    · exact bind_eq_ok.mpr ⟨c, hc, rfl⟩
    · have hblock : ∀ src t (c : CDG.State) b,
          (CDG.addBlock M f src t c b).funcMap = c.funcMap := fun src t c b =>
        foldl_preserves (P := fun c' : CDG.State => c'.funcMap = c.funcMap) rfl fun _ _ _ h' => h'
      refine CDG.computeDependencies_preserves
        (P := fun c : CDG.State => ∀ f ∈ M.functions, ∃ fw, c.funcMap f = some fw) hc ?_ ?_ ?_
      · intro fw' _ g hg
        simp only [FuncMap.set_apply]
        split
        · exact ⟨_, rfl⟩
        · exact hm g hg
      · intro _ _ b c1 h1
        rw [hblock]
        exact h1
      · intro _ _ _ _ _ b c1 h1
        rw [CDG.addBlocks, hblock]
        exact h1

theorem sound_initial : Sound M env [] (initial M env) where
  inv := Registry.inv_empty
  keys := by simp [initial, Registry.empty, registered, Registers]
  ddgNodes := by simp [initial, DependencyGraph.HasNode, DependencyGraph.empty]
  cdgNodes := by simp [initial, DependencyGraph.HasNode, DependencyGraph.empty]
  ddgLinks := by simp [initial]

variable (env) in
/-- A sequence of calls does not fault; it is sound if every call is safe, and poisoned otherwise. -/
theorem run_spec (hcalls : ∀ c ∈ calls, c.function ∈ M.functions) :
    ∃ s, run M env calls = .ok s ∧ (∀ f ∈ M.functions, ∃ fw, s.funcMap f = some fw) ∧
      (AllSafe M env calls → Sound M env calls s) ∧ (¬ AllSafe M env calls → Poisoned s) := by
  refine foldlM_invariant (P := fun pre s => (∀ f ∈ M.functions, ∃ fw, s.funcMap f = some fw) ∧
    (AllSafe M env pre → Sound M env pre s) ∧ (¬ AllSafe M env pre → Poisoned s))
    ⟨fun f hf => ⟨_, FuncMap.constructFuncMap_empty.trans (if_pos hf)⟩,
      fun _ => sound_initial, fun h => absurd (fun pre c post hx => by simp at hx) h⟩ ?_
  intro pre c post s hx hex
  obtain ⟨hm, hsound, hpoison⟩ := hex
  have hc : c.function ∈ M.functions := hcalls c (by simp [hx])
  have hpre : ∀ c ∈ pre, c.function ∈ M.functions := fun c hc => hcalls c (by simp [hx, hc])
  obtain ⟨s', hs', hm'⟩ := exec_ok env hc hm
  refine ⟨s', hs', hm', fun hall => ?_, fun hall => ?_⟩
  · obtain ⟨hall, hsafe⟩ := allSafe_snoc.mp hall
    exact (hsound hall).exec hc hsafe hs'
  · by_cases hp : AllSafe M env pre
    · exact poisoned_exec (hsound hp) hpre hc (fun hsafe => hall (allSafe_snoc.mpr ⟨hp, hsafe⟩)) hs'
    · obtain ⟨k, hk⟩ := hpoison hp
      exact ⟨k, exec_mono hs' hk⟩

/-- The registries are exact after a sequence of calls exactly if every call of it was safe. -/
theorem registryExact_iff (hcalls : ∀ c ∈ calls, c.function ∈ M.functions) :
    ∃ s, run M env calls = .ok s ∧ (RegistryExact M calls s ↔ AllSafe M env calls) := by
  obtain ⟨s, hs, _, hsound, hpoison⟩ := run_spec env hcalls
  refine ⟨s, hs, fun hex => ?_, fun hall => (hsound hall).exact⟩
  by_contra hall
  exact hex.not_poisoned (hpoison hall)

end Run

/-! ## A load without a store -/

namespace ArgumentLoad

def inst (i : InstId) : Instruction :=
  Option.getD (List.lookup i [(0, ⟨"t", 3, .load (.other 0), 0⟩)]) ⟨"", 3, .ret (some (.inst 0)), 0⟩

def M : Module where
  inst := inst
  func _ := { name := "get", blocks := [⟨0, [0, 1]⟩] }
  functions := [0]
  globals := []
  annotations := []

end ArgumentLoad

open ArgumentLoad in
/-- A function that loads from its argument and stores nothing: the load gets a link from a null
node, and the null key is in `instMap`. -/
theorem argumentLoad_not_exact : ∃ s, run M .straightLine [.runOnFunction 0] = .ok s ∧
    ¬ RegistryExact M [.runOnFunction 0] s ∧ (s.reg.instMap none).isSome ∧
    s.ddg.HasNode .null ∧ ∃ w ∈ s.reg.nodes, w.inst = some 0 ∧
      s.ddg.HasLink .null (.to w) DependencyType.dataRaw.toInt := by
  obtain ⟨s, hs, h⟩ := exists_ok (x := run M .straightLine [.runOnFunction 0]) (P := fun s =>
    (s.reg.instMap none).isSome ∧ .null ∈ s.ddg.nodes.map DependencyNode.data ∧
      s.reg.nodes.any fun w => w.inst = some 0 ∧
        (.to w, DependencyType.dataRaw.toInt) ∈ s.ddg.linksFrom .null) (by decide +kernel)
  rw [decide_eq_true_eq, List.any_eq_true] at h
  obtain ⟨hkey, hnode, w, hw, hl⟩ := h
  rw [decide_eq_true_eq] at hl
  refine ⟨s, hs, fun hex => ?_, hkey, hnode, w, hw, hl⟩
  obtain ⟨_, _, hi⟩ := (hex.keys none).mp hkey
  cases hi

open PDG.NearStore in
/-- A registered function whose load finds its store. -/
theorem registryExact_iff_nearStore : ∃ s,
    run M .straightLine [.constructInstMap 0, .runOnFunction 0, .computeDependencies 0] = .ok s ∧
    RegistryExact M [.constructInstMap 0, .runOnFunction 0, .computeDependencies 0] s := by
  obtain ⟨s, hs, hiff⟩ : ∃ s,
      run M .straightLine [.constructInstMap 0, .runOnFunction 0, .computeDependencies 0] = .ok s ∧
      (RegistryExact M [.constructInstMap 0, .runOnFunction 0, .computeDependencies 0] s ↔
        AllSafe M .straightLine
          [.constructInstMap 0, .runOnFunction 0, .computeDependencies 0]) :=
    registryExact_iff (by decide)
  refine ⟨s, hs, hiff.mpr ?_⟩
  have h1 : AllSafe M .straightLine ([] ++ [.constructInstMap 0]) :=
    allSafe_snoc.mpr ⟨fun pre c post hx => by simp at hx, trivial⟩
  have h2 : AllSafe M .straightLine ([.constructInstMap 0] ++ [.runOnFunction 0]) := by
    refine allSafe_snoc.mpr ⟨h1, fun L hL hload => ⟨1, ?_⟩⟩
    have hL2 : ∀ L ∈ M.insts 0, (M.kind L).isLoad = true → L = 2 := by decide
    cases hL2 L hL hload
    exact ⟨⟨by decide, rfl, by decide⟩, by decide⟩
  have h3 : Safe M .straightLine [.constructInstMap 0, .runOnFunction 0] (.computeDependencies 0) :=
    fun _ => .inl (by decide)
  exact allSafe_snoc.mpr ⟨h2, h3⟩

end RegistryCall
end DepTaint
