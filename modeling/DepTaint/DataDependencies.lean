import Mathlib.Algebra.Group.Int.Defs
import Mathlib.Algebra.Group.Nat.Defs
import DepTaint.DependencyGraph
import DepTaint.Wrapper

/-!
# DataDependencies

The data dependency graph (`DataDependencyGraph::runOnFunction`), with the part of the flow
dependence analysis it calls (`FlowDependenceAnalysis::getDependencyInFunction`).

For every load the pass collects the stores of the function that may alias it and links one of
them, the nearest in source lines, to the load; every operand that is an instruction is linked to
its user.

* `candidateSI_eq_some`: the store chosen for a load is the first nearest one below `maxLocNum`.
* `runOnFunction_spec`: the links one run adds are exactly those of `Link`.
-/

namespace DepTaint

/-- `AliasAnalysis::AliasResult`. -/
inductive AliasResult where
  | noAlias
  | mayAlias
  | partialAlias
  | mustAlias
deriving DecidableEq

/-- `Global_AA->alias(getLocation(LI), getLocation(SI))` for a load and a store. -/
abbrev AliasOracle := InstId → InstId → AliasResult

namespace DDG

section Candidate

variable (M : Module) (AA : AliasOracle) (f : FuncId)

/-- `getDependencyInFunction`: the stores of `f` that may alias `L`, in instruction order. -/
def getDependencyInFunction (L : InstId) : List InstId :=
  let StoreVec := (M.insts f).filter fun i => (M.kind i).isStore
  StoreVec.filter fun S => decide (AA L S ≠ .noAlias)

def maxLocNum : Int := 100000

def unsignedAbs (a b : Nat) : Nat := if a ≥ b then a - b else b - a

/-- Conversion of an `unsigned` to `int`. -/
def toInt (n : Nat) : Int := if n < 2 ^ 31 then n else (n : Int) - 2 ^ 32

/-- `diffLoadStore`. -/
def diffLoadStore (L S : InstId) : Int := toInt (unsignedAbs (M.line S) (M.line L))

/-- `candidateSI` after the loop over the stores. The first component of the state is
`loadLocMap[L]`, which every run resets to `maxLocNum` and reads in the iteration of `L` only. -/
def candidateSI (L : InstId) : Option InstId :=
  ((getDependencyInFunction M AA f L).foldl (minStep (diffLoadStore M L)) (maxLocNum, none)).2

end Candidate

/-- The registries and the graph while the pass runs. -/
structure State where
  reg : Registry
  ddg : DependencyGraph WrapperPtr

/-- `DDG->addDependency(instMap[src], instMap[dst], type)`. -/
def State.addLink (s : State) (src dst : Option InstId) (type : DependencyType) : State where
  reg := (s.reg.touch src).touch dst
  ddg := s.ddg.addDependency (s.reg.instMapAt src) ((s.reg.touch src).instMapAt dst) type.toInt

/-- The def-use link of one operand. -/
def addOperand (i : InstId) (s : State) : Value → State
  | .inst j => s.addLink (some j) (some i) .dataDefUse
  | _ => s

/-- One iteration of the instruction loop. -/
def visit (M : Module) (AA : AliasOracle) (f : FuncId) (s : State) (i : InstId) : State :=
  let s : State := ⟨s.reg.touch (some i), s.ddg.getNodeByData (s.reg.instMapAt (some i))⟩
  let s :=
    if (M.kind i).isLoad then s.addLink (candidateSI M AA f i) (some i) .dataRaw else s
  (M.kind i).operands.foldl (addOperand i) s

/-- `DataDependencyGraph::runOnFunction`. -/
def runOnFunction (heap : Heap) (M : Module) (AA : AliasOracle) (s : State) (f : FuncId) :
    State :=
  (M.insts f).foldl (visit M AA f) { s with reg := s.reg.constructInstMap heap M f }

/-! ## The candidate store -/

theorem unsignedAbs_eq (a b : Nat) : unsignedAbs a b = ((a : Int) - b).natAbs := by
  unfold unsignedAbs
  split <;> omega

/-- The distance of two instructions in source lines. -/
def lineDist (M : Module) (L S : InstId) : Int := ((M.line S : Int) - M.line L).natAbs

/-- Line numbers have 24 bits, so the conversion to `int` keeps the distance. -/
theorem diffLoadStore_eq (M : Module) (L S : InstId) :
    diffLoadStore M L S = lineDist M L S := by
  have hS := (M.inst S).line.isLt
  have hL := (M.inst L).line.isLt
  rw [lineDist, ← unsignedAbs_eq, diffLoadStore, toInt, if_pos]
  unfold unsignedAbs Module.line
  split <;> omega

theorem candidateSI_eq_some {M : Module} {AA : AliasOracle} {f : FuncId} {L S : InstId} :
    candidateSI M AA f L = some S ↔
      IsFirstMin (lineDist M L) maxLocNum (getDependencyInFunction M AA f L) S := by
  rw [candidateSI, foldl_minStep_eq_some, funext (diffLoadStore_eq M L)]

theorem mem_getDependencyInFunction {M : Module} {AA : AliasOracle} {f : FuncId} {L S : InstId} :
    S ∈ getDependencyInFunction M AA f L ↔
      S ∈ M.insts f ∧ (M.kind S).isStore = true ∧ AA L S ≠ .noAlias := by
  simp only [getDependencyInFunction, List.mem_filter, decide_eq_true_eq, and_assoc]

theorem candidateSI_mem {M : Module} {AA : AliasOracle} {f : FuncId} {L S : InstId}
    (h : candidateSI M AA f L = some S) : S ∈ M.insts f ∧ (M.kind S).isStore = true := by
  obtain ⟨_, pre, post, hx, _⟩ := candidateSI_eq_some.mp h
  have hmem : S ∈ getDependencyInFunction M AA f L := by simp [hx]
  rw [mem_getDependencyInFunction] at hmem
  exact ⟨hmem.1, hmem.2.1⟩

/-! ## The links of the graph -/

/-- The links a run on `f` adds, when `ptr k` is the value of `instMap[k]`. -/
inductive Link (M : Module) (AA : AliasOracle) (f : FuncId) (ptr : Option InstId → WrapperPtr) :
    WrapperPtr → WrapperPtr → Int → Prop where
  | raw {L : InstId} : L ∈ M.insts f → (M.kind L).isLoad = true →
      Link M AA f ptr (ptr (candidateSI M AA f L)) (ptr (some L)) DependencyType.dataRaw.toInt
  | defUse {i j : InstId} : i ∈ M.insts f → .inst j ∈ (M.kind i).operands →
      Link M AA f ptr (ptr (some j)) (ptr (some i)) DependencyType.dataDefUse.toInt

/-- The links only depend on the wrappers of `f`. -/
theorem Link.congr {M : Module} {AA : AliasOracle} {f : FuncId} (hf : f ∈ M.functions)
    {ptr ptr' : Option InstId → WrapperPtr}
    (h : ∀ k, (∀ i, k = some i → i ∈ M.insts f) → ptr k = ptr' k) {p q : WrapperPtr} {t : Int}
    (hl : Link M AA f ptr p q t) : Link M AA f ptr' p q t := by
  cases hl with
  | @raw L hL hload =>
    rw [h (some L) (by rintro _ ⟨⟩; exact hL), h (candidateSI M AA f L)
      fun S hS => (candidateSI_mem hS).1]
    exact .raw hL hload
  | @defUse i j hi hj =>
    rw [h (some i) (by rintro _ ⟨⟩; exact hi),
      h (some j) (by rintro _ ⟨⟩; exact (M.operands_ok f hf i hi _ hj).1)]
    exact .defUse hi hj

section Run

variable {heap : Heap} {M : Module} {AA : AliasOracle} {f : FuncId} {R : Registry}

/-- The rule of one iteration: what the lookup of the node and every link it adds keep. -/
theorem visit_preserves {P : State → Prop} {s : State} {i : InstId} (h : P s)
    (hnode : ∀ s, P s → P ⟨s.reg.touch (some i), s.ddg.getNodeByData (s.reg.instMapAt (some i))⟩)
    (hraw : (M.kind i).isLoad = true →
      ∀ s, P s → P (s.addLink (candidateSI M AA f i) (some i) .dataRaw))
    (hdefUse : ∀ j, .inst j ∈ (M.kind i).operands →
      ∀ s, P s → P (s.addLink (some j) (some i) .dataDefUse)) : P (visit M AA f s i) := by
  unfold visit
  extract_lets s1 s2
  have h1 : P s1 := hnode s h
  have h2 : P s2 := by
    by_cases hl : (M.kind i).isLoad = true
    · simp only [s2, if_pos hl]
      exact hraw hl s1 h1
    · simp only [s2, if_neg hl]
      exact h1
  refine foldl_preserves h2 fun s v hv hs => ?_
  cases v with
  | inst j => exact hdefUse j hv s hs
  | global _ | func _ | other _ => exact hs

/-- The rule of one run on `f`. -/
theorem runOnFunction_preserves {P : State → Prop} {s : State}
    (h : P { s with reg := s.reg.constructInstMap heap M f })
    (hnode : ∀ i ∈ M.insts f, ∀ s, P s →
      P ⟨s.reg.touch (some i), s.ddg.getNodeByData (s.reg.instMapAt (some i))⟩)
    (hraw : ∀ i ∈ M.insts f, (M.kind i).isLoad = true →
      ∀ s, P s → P (s.addLink (candidateSI M AA f i) (some i) .dataRaw))
    (hdefUse : ∀ i ∈ M.insts f, ∀ j, .inst j ∈ (M.kind i).operands →
      ∀ s, P s → P (s.addLink (some j) (some i) .dataDefUse)) :
    P (runOnFunction heap M AA s f) :=
  foldl_preserves h fun _ i hi hs =>
    visit_preserves hs (hnode i hi) (hraw i hi) (hdefUse i hi)

theorem addLink_sees {s : State} (h : Registry.Sees heap M f R s.reg) (hR : R.Registered M f)
    {src dst : Option InstId} (hs : ∀ i, src = some i → i ∈ M.insts f)
    (hd : ∀ i, dst = some i → i ∈ M.insts f) (t : DependencyType) :
    Registry.Sees heap M f R (s.addLink src dst t).reg :=
  (h.touch hR hs).touch hR hd

theorem addLink_link {s : State} (h : Registry.Sees heap M f R s.reg) {src dst : Option InstId}
    {type : DependencyType} {p q : WrapperPtr} {t : Int} :
    (s.addLink src dst type).ddg.HasLink p q t ↔ s.ddg.HasLink p q t ∨
      (p = R.instMapAt src ∧ q = R.instMapAt dst ∧ t = type.toInt) := by
  simp only [State.addLink, Registry.instMapAt_touch, h.instMapAt,
    DependencyGraph.hasLink_addDependency]

theorem addOperand_sees {s : State} (h : Registry.Sees heap M f R s.reg) (hR : R.Registered M f)
    (hf : f ∈ M.functions) {i : InstId} (hi : i ∈ M.insts f) {v : Value}
    (hv : v ∈ (M.kind i).operands) : Registry.Sees heap M f R (addOperand i s v).reg := by
  cases v with
  | inst j =>
    have hj : j ∈ M.insts f := (M.operands_ok f hf i hi (.inst j) hv).1
    exact addLink_sees h hR (by rintro _ ⟨⟩; exact hj) (by rintro _ ⟨⟩; exact hi) _
  | global _ | func _ | other _ => exact h

theorem addOperand_link {s : State} (h : Registry.Sees heap M f R s.reg) {i : InstId} {v : Value}
    {p q : WrapperPtr} {t : Int} :
    (addOperand i s v).ddg.HasLink p q t ↔ s.ddg.HasLink p q t ∨
      ∃ j, v = .inst j ∧ p = R.instMapAt (some j) ∧ q = R.instMapAt (some i) ∧
        t = DependencyType.dataDefUse.toInt := by
  cases v with
  | inst j => simp [addOperand, addLink_link h]
  | global _ | func _ | other _ => simp [addOperand]

/-- The links one iteration adds. -/
theorem visit_spec {s : State} (h : Registry.Sees heap M f R s.reg) (hR : R.Registered M f)
    (hf : f ∈ M.functions) {i : InstId} (hi : i ∈ M.insts f) :
    Registry.Sees heap M f R (visit M AA f s i).reg ∧
      ∀ p q t, (visit M AA f s i).ddg.HasLink p q t ↔ s.ddg.HasLink p q t ∨
        ((M.kind i).isLoad = true ∧ p = R.instMapAt (candidateSI M AA f i) ∧
          q = R.instMapAt (some i) ∧ t = DependencyType.dataRaw.toInt) ∨
        ∃ j, .inst j ∈ (M.kind i).operands ∧ p = R.instMapAt (some j) ∧
          q = R.instMapAt (some i) ∧ t = DependencyType.dataDefUse.toInt := by
  have hsi : ∀ j, some i = some j → j ∈ M.insts f := by
    rintro _ ⟨⟩
    exact hi
  unfold visit
  extract_lets s1 s2
  have h1 : Registry.Sees heap M f R s1.reg := h.touch hR hsi
  have h2 : Registry.Sees heap M f R s2.reg ∧ ∀ p q t, s2.ddg.HasLink p q t ↔ s.ddg.HasLink p q t ∨
      ((M.kind i).isLoad = true ∧ p = R.instMapAt (candidateSI M AA f i) ∧
        q = R.instMapAt (some i) ∧ t = DependencyType.dataRaw.toInt) := by
    by_cases hl : (M.kind i).isLoad = true
    · simp only [s2, if_pos hl]
      refine ⟨addLink_sees h1 hR (fun S hS => (candidateSI_mem hS).1) hsi _, fun p q t => ?_⟩
      rw [addLink_link h1]
      simp [s1, hl]
    · simp only [s2, if_neg hl]
      exact ⟨h1, fun p q t => by simp [s1, hl]⟩
  refine ⟨foldl_preserves (P := fun s : State => Registry.Sees heap M f R s.reg) h2.1
    fun s v hv hs => addOperand_sees hs hR hf hi hv, fun p q t => ?_⟩
  rw [foldl_iff (I := fun s : State => Registry.Sees heap M f R s.reg)
    (R := fun s : State => s.ddg.HasLink p q t) h2.1
    (fun s v hv hs => addOperand_sees hs hR hf hi hv) (fun s v _ hs => addOperand_link hs),
    h2.2, or_assoc]
  refine or_congr_right (or_congr_right ⟨?_, ?_⟩)
  · rintro ⟨_, hv, j, rfl, hj⟩
    exact ⟨j, hv, hj⟩
  · rintro ⟨j, hv, hj⟩
    exact ⟨_, hv, j, rfl, hj⟩

/-- One run on `f` registers the instructions of `f` and adds exactly the links of `Link`. -/
theorem runOnFunction_spec (AA : AliasOracle) {s : State} (h : s.reg.Inv heap M) (hf : f ∈ M.functions) :
    Registry.Sees heap M f (s.reg.constructInstMap heap M f) (runOnFunction heap M AA s f).reg ∧
      ∀ p q t, (runOnFunction heap M AA s f).ddg.HasLink p q t ↔
        s.ddg.HasLink p q t ∨ Link M AA f (s.reg.constructInstMap heap M f).instMapAt p q t := by
  obtain ⟨hinv, _, hR⟩ := Registry.constructInstMap_spec h hf
  have h0 := Registry.Sees.refl (f := f) hinv
  refine ⟨foldl_preserves (P := fun s : State => Registry.Sees heap M f _ s.reg) h0
    fun s i hi hs => (visit_spec hs hR hf hi).1, fun p q t => ?_⟩
  unfold runOnFunction
  rw [foldl_iff (I := fun s : State => Registry.Sees heap M f _ s.reg)
    (R := fun s : State => s.ddg.HasLink p q t) h0
    (fun s i hi hs => (visit_spec hs hR hf hi).1)
    (fun s i hi hs => (visit_spec hs hR hf hi).2 p q t)]
  refine or_congr_right ⟨?_, ?_⟩
  · rintro ⟨i, hi, ⟨hl, rfl, rfl, rfl⟩ | ⟨j, hj, rfl, rfl, rfl⟩⟩
    · exact .raw hi hl
    · exact .defUse hi hj
  · intro hl
    cases hl with
    | @raw L hL hload => exact ⟨L, hL, .inl ⟨hload, rfl, rfl, rfl⟩⟩
    | @defUse i j hi hj => exact ⟨i, hi, .inr ⟨j, hj, rfl, rfl, rfl⟩⟩

end Run

end DDG

end DepTaint
