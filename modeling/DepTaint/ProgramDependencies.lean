import Mathlib.Data.List.Infix
import DepTaint.ControlDependencies
import DepTaint.DataDependencies

/-!
# ProgramDependencies

The construction of the program dependency graph: the first part of
`ProgramDependencyGraph::runOnModule`, with `PARAMETER_TREE` 0 as the repository ships it.

Functions are processed in module order. A function that is defined gets its instruction wrappers,
its return and alloca lists, its data and control dependency graph, and then a double loop over its
wrappers merges the two graphs into the PDG and connects its calls.

* `merge_spec`: the double loop for one function does not fault and adds exactly the links of
  `NodeLink`.
-/

namespace DepTaint
namespace PDG

/-- What a run gets from outside: the allocator, alias analysis, the post-dominator trees, and what
the memory of a new `FunctionWrapper` holds where `entryW` will be, which is no wrapper. -/
structure Env where
  heap : Heap
  AA : AliasOracle
  PDT : FuncId → PostDominatorTree
  garbage : WrapperPtr
  garbage_ne : ∀ w, garbage ≠ .to w

/-- For functions of one block: objects at their own addresses, and an alias analysis that knows
nothing. -/
def Env.straightLine : Env where
  heap := ⟨id, Function.injective_id⟩
  AA _ _ := .mayAlias
  PDT _ := .star (some 0) [] (by simp)
  garbage := .null
  garbage_ne := by simp

def allocaMAX : Nat := 100000

structure State where
  reg : Registry
  funcMap : FuncMap
  ddg : DependencyGraph WrapperPtr
  cdg : DependencyGraph WrapperPtr
  pdg : DependencyGraph WrapperPtr
  access : InstructionWrapper → Bool
  sensitiveValues : List Value

/-- The statics and the graphs before the first module. -/
def State.fresh : State :=
  ⟨.empty, .empty, .empty, .empty, .empty, fun _ => false, []⟩

end PDG

/-! ## Classes of instructions -/

/-- `isa<>` on the instruction of a wrapper. The merge only asks this of INST wrappers, which carry
an instruction. -/
def InstructionWrapper.isa (M : Module) (p : Kind → Bool) (w : InstructionWrapper) : Bool :=
  w.inst.any fun i => p (M.kind i)

/-- `CI->getCalledFunction()`. -/
def getCalledFunction : Value → Option FuncId
  | .func g => some g
  | _ => none

/-- What a `var_annotation` call saves in `sensitive_values`: its first argument, or the operands of
a bitcast. -/
def annotatedValues (M : Module) : List Value → List Value
  | [] => []
  | .inst j :: _ => if (M.kind j).isBitCast then (M.kind j).operands else [.inst j]
  | v :: _ => [v]

/-- `AI->getName().find("retval") != npos`. -/
def hasRetval (name : String) : Bool := decide ("retval".toList <:+: name.toList)

/-- `i` is a call node for which the loop over the nodes executes `continue`: an indirect call, a
call of an intrinsic or a declared function, or a tail call. -/
def Module.earlyExit (M : Module) (i : InstId) : Bool :=
  match M.kind i with
  | .call called _ isTailCall =>
    match getCalledFunction called with
    | none => true
    | some callee => (M.func callee).intrinsic.isSome || (M.func callee).isDeclaration || isTailCall
  | _ => false

/-- `i` is a direct call, not marked `tail`, of the function `g`, which has a body. -/
def Module.Calls (M : Module) (i : InstId) (g : FuncId) : Prop :=
  (M.func g).intrinsic = none ∧ (M.func g).isDeclaration = false ∧
    ∃ args, M.kind i = .call (.func g) args false

theorem Module.Calls.unique {M : Module} {i : InstId} {g g' : FuncId} (h : M.Calls i g)
    (h' : M.Calls i g') :
    g = g' := by
  obtain ⟨_, _, _, hk⟩ := h
  obtain ⟨_, _, _, hk'⟩ := h'
  rw [hk] at hk'
  cases hk'
  rfl

theorem Module.Calls.not_earlyExit {M : Module} {i : InstId} {g : FuncId} (h : M.Calls i g) :
    M.earlyExit i = false := by
  obtain ⟨hint, hdef, args, hk⟩ := h
  simp [Module.earlyExit, hk, getCalledFunction, hint, hdef]

/-- The values a `var_annotation` call annotates. -/
def Module.annotates (M : Module) (i : InstId) : List Value :=
  match M.kind i with
  | .call (.func g) args _ =>
    if (M.func g).intrinsic = some Intrinsic.varAnnotation then annotatedValues M args else []
  | _ => []

namespace PDG

/-! ## The merge of one function -/

/-- What the double loop changes. -/
structure Merge where
  pdg : DependencyGraph WrapperPtr
  access : InstructionWrapper → Bool
  sensitiveValues : List Value

section Merge

variable (M : Module) (reg : Registry) (funcMap : FuncMap) (ddg cdg : DependencyGraph WrapperPtr)
  (F : FuncId)

/-- The loop over `nodes` for one `ReturnInst` of the callee. -/
def connectReturn (InstW : InstructionWrapper) (pdg : DependencyGraph WrapperPtr) (RI : InstId) :
    DependencyGraph WrapperPtr :=
  reg.nodes.foldl (fun pdg nodeW =>
    if nodeW.inst = some RI then
      match M.kind RI with
      | .ret (some _) => pdg.addDependency (.to nodeW) (.to InstW) DependencyType.dataGeneral.toInt
      | _ => pdg
    else pdg) pdg

def connectCallerAndCallee (pdg : DependencyGraph WrapperPtr) (InstW : InstructionWrapper)
    (callee : FuncId) : Except Fault (DependencyGraph WrapperPtr) := do
  let fw ← funcMap.get callee
  let pdg := pdg.addDependency (.to InstW) fw.entryW DependencyType.dataGeneral.toInt
  return fw.returnInstList.foldl (connectReturn M reg InstW) pdg

/-- The processing of a call node. The flag says whether the source executes `continue`. -/
def processCall (s : Merge) (InstW : InstructionWrapper) (called : Value) (args : List Value)
    (isTailCall : Bool) : Except Fault (Merge × Bool) :=
  match getCalledFunction called with
  | none => .ok (s, true) -- `connectAllPossibleFunctions` only prints
  | some callee =>
    if (M.func callee).intrinsic.isSome || (M.func callee).isDeclaration then
      if (M.func callee).intrinsic = some Intrinsic.varAnnotation then
        .ok ({ s with sensitiveValues := s.sensitiveValues ++ annotatedValues M args }, true)
      else .ok (s, true)
    else if isTailCall then .ok (s, true)
    else do
      let pdg ← connectCallerAndCallee M reg funcMap s.pdg InstW callee
      return ({ s with pdg := pdg, access := Function.update s.access InstW true }, false)

/-- The first part of the outer loop's body. -/
def visitCall (s : Merge) (InstW : InstructionWrapper) : Except Fault (Merge × Bool) :=
  match InstW.inst with
  | none => .ok (s, false)
  | some CI =>
    match M.kind CI with
    | .call called args isTailCall =>
      if InstW.type = .inst ∧ s.access InstW = false then
        processCall M reg funcMap s InstW called args isTailCall
      else .ok (s, false)
    | _ => .ok (s, false)

/-- `isa<LoadInst>(InstW2->getInstruction())` with its pointer operand, for an INST wrapper. -/
def loadPointer (InstW2 : InstructionWrapper) : Option Value :=
  if InstW2.type = .inst then
    InstW2.inst.bind fun LI2 => match M.kind LI2 with
      | .load ptr => some ptr
      | _ => none
  else none

/-- The loop over `globalList` for a load. -/
def linkGlobals (InstW2 : InstructionWrapper) (pdg : DependencyGraph WrapperPtr) :
    DependencyGraph WrapperPtr :=
  match loadPointer M InstW2 with
  | none => pdg
  | some ptr => reg.globalList.foldl (fun pdg gi =>
      if some ptr = gi.value then
        pdg.addDependency (.to gi) (.to InstW2) InstWrapperType.globalValue.toInt
      else pdg) pdg

/-- Only a link from a store to a load is annotated. -/
def dataType (InstW InstW2 : InstructionWrapper) : DependencyType :=
  if InstW2.type = .inst ∧ InstW.isa M Kind.isStore = true ∧ InstW2.isa M Kind.isLoad = true then
    .dataRaw
  else .dataDefUse

/-- The body of the inner loop. -/
def linkPair (InstW : InstructionWrapper) (pdg : DependencyGraph WrapperPtr)
    (InstW2 : InstructionWrapper) : DependencyGraph WrapperPtr :=
  let pdg := linkGlobals M reg InstW2 pdg
  let pdg :=
    if InstW.type = .inst then
      let pdg :=
        if ddg.depends (.to InstW) (.to InstW2) then
          pdg.addDependency (.to InstW) (.to InstW2) (dataType M InstW InstW2).toInt
        else pdg
      if InstW2.inst.isSome ∧ cdg.depends (.to InstW) (.to InstW2) = true then
        pdg.addDependency (.to InstW) (.to InstW2) DependencyType.control.toInt
      else pdg
    else pdg
  if InstW.type = .entry then
    if InstW2.inst.isSome ∧ cdg.depends (.to InstW) (.to InstW2) = true then
      pdg.addDependency (.to InstW) (.to InstW2) DependencyType.control.toInt
    else pdg
  else pdg

/-- The body of the outer loop. -/
def visitNode (s : Merge) (InstW : InstructionWrapper) : Except Fault Merge := do
  let (s, continues) ← visitCall M reg funcMap s InstW
  if continues then return s
  return { s with pdg := (reg.funcInstWList F).foldl (linkPair M reg ddg cdg InstW) s.pdg }

/-- The double loop over `funcInstWList[F]`. -/
def merge (s : Merge) : Except Fault Merge :=
  (reg.funcInstWList F).foldlM (visitNode M reg funcMap ddg cdg F) s

end Merge

/-! ## The module loop -/

section Build

variable (M : Module) (env : Env)

/-- The part of the instruction loop that fills `returnInstList` and `allocaMap`. -/
def collect (fw : FunctionWrapper) (i : InstId) : FunctionWrapper :=
  match M.kind i with
  | .ret _ => { fw with returnInstList := fw.returnInstList ++ [i] }
  | .alloca _ =>
    if hasRetval (M.name i) then fw else { fw with allocaMap := fw.allocaMap.insert i allocaMAX }
  | _ => fw

/-- The loop that sets the entries; `funcMap` is left alone for a function it does not hold. -/
def setEntry (funcMap : FuncMap) (InstW : InstructionWrapper) : FuncMap :=
  if InstW.type = .entry then
    match InstW.func with
    | none => funcMap
    | some f =>
      match funcMap f with
      | none => funcMap
      | some fw => funcMap.set f { fw with entryW := .to InstW }
  else funcMap

/-- The body of the loop over the functions of the module. -/
def processFunction (s : State) (F : FuncId) : Except Fault State := do
  if (M.func F).isDeclaration then return s
  let reg := s.reg.constructInstMap env.heap M F
  let fw ← s.funcMap.get F
  let funcMap := s.funcMap.set F ((M.insts F).foldl (collect M) fw)
  let d := DDG.runOnFunction env.heap M env.AA ⟨reg, s.ddg⟩ F
  let c ← CDG.computeDependencies M (env.PDT F) F env.heap
    (CDG.runOnFunction M F env.heap ⟨d.reg, funcMap, s.cdg⟩)
  let funcMap := (c.reg.funcInstWList F).foldl setEntry c.funcMap
  let m ← merge M c.reg funcMap d.ddg c.cdg F ⟨s.pdg, s.access, s.sensitiveValues⟩
  return ⟨c.reg, funcMap, d.ddg, c.cdg, m.pdg, m.access, m.sensitiveValues⟩

/-- The loop over `global_begin()`, `global_end()`. -/
def constructGlobals (reg : Registry) : Registry :=
  M.globals.foldl (fun reg g => reg.insertGlobal (reg.globalWrapper env.heap g)) reg

/-- The construction of the PDG. -/
def build (s : State) : Except Fault State :=
  M.functions.foldlM (processFunction M env)
    { s with
      funcMap := FuncMap.constructFuncMap env.garbage M s.funcMap
      reg := constructGlobals M env s.reg }

end Build

/-! ## What the merge adds -/

/-- The source executes `continue` in the iteration for `w`. -/
def continues (M : Module) (w : InstructionWrapper) : Bool := w.inst.any M.earlyExit

/-- The links `connectCallerAndCallee` adds for the call node `w` of the instruction `i`. -/
inductive CallLink (M : Module) (reg : Registry) (funcMap : FuncMap) (w : InstructionWrapper)
    (i : InstId) : WrapperPtr → WrapperPtr → Int → Prop where
  | entry {g : FuncId} {fw : FunctionWrapper} : M.Calls i g → funcMap g = some fw →
      CallLink M reg funcMap w i (.to w) fw.entryW DependencyType.dataGeneral.toInt
  | ret {r : InstId} {g : FuncId} {fw : FunctionWrapper} {v : Value} {n : InstructionWrapper} :
      M.Calls i g → funcMap g = some fw → r ∈ fw.returnInstList → M.kind r = .ret (some v) →
      n ∈ reg.nodes → n.inst = some r →
      CallLink M reg funcMap w i (.to n) (.to w) DependencyType.dataGeneral.toInt

/-- The links the inner loop adds for `w`. -/
inductive PairLink (M : Module) (reg : Registry) (ddg cdg : DependencyGraph WrapperPtr)
    (F : FuncId) (w : InstructionWrapper) : WrapperPtr → WrapperPtr → Int → Prop where
  | global {w2 gi : InstructionWrapper} {ptr : Value} : w2 ∈ reg.funcInstWList F →
      loadPointer M w2 = some ptr → gi ∈ reg.globalList → gi.value = some ptr →
      PairLink M reg ddg cdg F w (.to gi) (.to w2) InstWrapperType.globalValue.toInt
  | data {w2 : InstructionWrapper} : w2 ∈ reg.funcInstWList F → w.type = .inst →
      ddg.depends (.to w) (.to w2) = true →
      PairLink M reg ddg cdg F w (.to w) (.to w2) (dataType M w w2).toInt
  | control {w2 : InstructionWrapper} : w2 ∈ reg.funcInstWList F →
      w.type = .inst ∨ w.type = .entry → w2.inst.isSome → cdg.depends (.to w) (.to w2) = true →
      PairLink M reg ddg cdg F w (.to w) (.to w2) DependencyType.control.toInt

/-- The links the outer loop's iteration for `w` adds. -/
inductive NodeLink (M : Module) (reg : Registry) (funcMap : FuncMap)
    (ddg cdg : DependencyGraph WrapperPtr) (F : FuncId) (w : InstructionWrapper)
    (p q : WrapperPtr) (t : Int) : Prop where
  | call {i : InstId} : w.inst = some i → CallLink M reg funcMap w i p q t →
      NodeLink M reg funcMap ddg cdg F w p q t
  | pair : continues M w = false → PairLink M reg ddg cdg F w p q t →
      NodeLink M reg funcMap ddg cdg F w p q t

section Spec

variable {heap : Heap} {M : Module} {reg : Registry} {funcMap : FuncMap}
  {ddg cdg pdg : DependencyGraph WrapperPtr} {F : FuncId} {w : InstructionWrapper}
  {p q : WrapperPtr} {t : Int}

theorem linkGlobals_link {w2 : InstructionWrapper} :
    (linkGlobals M reg w2 pdg).HasLink p q t ↔ pdg.HasLink p q t ∨
      ∃ ptr, loadPointer M w2 = some ptr ∧ ∃ gi ∈ reg.globalList, gi.value = some ptr ∧
        p = .to gi ∧ q = .to w2 ∧ t = InstWrapperType.globalValue.toInt := by
  unfold linkGlobals
  cases hptr : loadPointer M w2 with
  | none => simp
  | some ptr =>
    simp only [Option.some.injEq, exists_eq_left']
    refine foldl_iff (I := fun _ => True) (R := fun g : DependencyGraph WrapperPtr =>
      g.HasLink p q t) trivial (fun _ _ _ _ => trivial) fun g gi _ _ => ?_
    rw [DependencyGraph.hasLink_ite, eq_comm (a := some ptr)]

/-- One iteration of the inner loop. -/
theorem linkPair_link {w2 : InstructionWrapper} :
    (linkPair M reg ddg cdg w pdg w2).HasLink p q t ↔ pdg.HasLink p q t ∨
      (∃ ptr, loadPointer M w2 = some ptr ∧ ∃ gi ∈ reg.globalList, gi.value = some ptr ∧
        p = .to gi ∧ q = .to w2 ∧ t = InstWrapperType.globalValue.toInt) ∨
      (w.type = .inst ∧ ddg.depends (.to w) (.to w2) = true ∧
        p = .to w ∧ q = .to w2 ∧ t = (dataType M w w2).toInt) ∨
      ((w.type = .inst ∨ w.type = .entry) ∧ w2.inst.isSome ∧ cdg.depends (.to w) (.to w2) = true ∧
        p = .to w ∧ q = .to w2 ∧ t = DependencyType.control.toInt) := by
  have hne : ¬ (InstWrapperType.inst = .entry) := by simp
  unfold linkPair
  by_cases hi : w.type = .inst
  · simp only [hi, if_true, if_neg hne, DependencyGraph.hasLink_ite, linkGlobals_link, true_and,
      true_or, or_assoc, and_assoc]
  · by_cases he : w.type = .entry
    · simp only [he, if_true, if_false, DependencyGraph.hasLink_ite, linkGlobals_link,
        true_and, or_true, or_assoc, and_assoc, false_and, false_or, reduceCtorEq]
    · simp only [hi, he, if_false, linkGlobals_link, false_and, or_false]

/-- The inner loop. -/
theorem foldl_linkPair_link :
    ((reg.funcInstWList F).foldl (linkPair M reg ddg cdg w) pdg).HasLink p q t ↔
      pdg.HasLink p q t ∨ PairLink M reg ddg cdg F w p q t := by
  rw [foldl_iff (f := linkPair M reg ddg cdg w) (I := fun _ => True)
    (R := fun g : DependencyGraph WrapperPtr => g.HasLink p q t)
    trivial (fun _ _ _ _ => trivial) (fun g w2 _ _ => linkPair_link)]
  refine or_congr_right ⟨?_, ?_⟩
  · rintro ⟨w2, h2, ⟨ptr, hptr, gi, hgi, hv, rfl, rfl, rfl⟩ | ⟨hi, hd, rfl, rfl, rfl⟩ |
      ⟨hi, hs, hc, rfl, rfl, rfl⟩⟩
    · exact .global h2 hptr hgi hv
    · exact .data h2 hi hd
    · exact .control h2 hi hs hc
  · intro h
    cases h with
    | @global w2 gi ptr h2 hptr hgi hv =>
      exact ⟨w2, h2, .inl ⟨ptr, hptr, gi, hgi, hv, rfl, rfl, rfl⟩⟩
    | @data w2 h2 hi hd => exact ⟨w2, h2, .inr (.inl ⟨hi, hd, rfl, rfl, rfl⟩)⟩
    | @control w2 h2 hi hs hc => exact ⟨w2, h2, .inr (.inr ⟨hi, hs, hc, rfl, rfl, rfl⟩)⟩

/-- The loop over the nodes for one return instruction of the callee. -/
theorem connectReturn_link {r : InstId} :
    (connectReturn M reg w pdg r).HasLink p q t ↔ pdg.HasLink p q t ∨
      ∃ n ∈ reg.nodes, n.inst = some r ∧ (∃ v, M.kind r = .ret (some v)) ∧
        p = .to n ∧ q = .to w ∧ t = DependencyType.dataGeneral.toInt := by
  unfold connectReturn
  refine foldl_iff (I := fun _ => True) (R := fun g : DependencyGraph WrapperPtr =>
    g.HasLink p q t) trivial (fun _ _ _ _ => trivial) fun g n _ _ => ?_
  by_cases hn : n.inst = some r
  · rw [if_pos hn]
    split
    · rename_i v hv
      simp [hn, hv]
    · rename_i hv
      have : ¬ ∃ v, M.kind r = .ret (some v) := fun ⟨v, h⟩ => hv v h
      simp [this]
  · simp [hn]

theorem connectCallerAndCallee_spec (reg : Registry) (pdg : DependencyGraph WrapperPtr)
    {i : InstId} {g : FuncId} {fw : FunctionWrapper} (hcalls : M.Calls i g) (hfw : funcMap g = some fw) :
    ∃ pdg', connectCallerAndCallee M reg funcMap pdg w g = .ok pdg' ∧
      ∀ p q t, pdg'.HasLink p q t ↔ pdg.HasLink p q t ∨ CallLink M reg funcMap w i p q t := by
  refine ⟨_, by simp only [connectCallerAndCallee, FuncMap.get_of_some hfw]; rfl, fun p q t => ?_⟩
  rw [foldl_iff (A := fun r => ∃ n ∈ reg.nodes, n.inst = some r ∧ (∃ v, M.kind r = .ret (some v)) ∧
      p = .to n ∧ q = .to w ∧ t = DependencyType.dataGeneral.toInt) (I := fun _ => True)
    (R := fun g : DependencyGraph WrapperPtr => g.HasLink p q t)
    trivial (fun _ _ _ _ => trivial) (fun g r _ _ => connectReturn_link),
    DependencyGraph.hasLink_addDependency, or_assoc]
  refine or_congr_right ⟨?_, ?_⟩
  · rintro (⟨rfl, rfl, rfl⟩ | ⟨r, hr, n, hn, hnr, ⟨v, hv⟩, rfl, rfl, rfl⟩)
    · exact .entry hcalls hfw
    · exact .ret hcalls hfw hr hv hn hnr
  · intro h
    cases h with
    | @entry g' fw' hc hf =>
      obtain rfl := hc.unique hcalls
      rw [hfw] at hf
      cases hf
      exact .inl ⟨rfl, rfl, rfl⟩
    | @ret r g' fw' v n hc hf hr hv hn hnr =>
      obtain rfl := hc.unique hcalls
      rw [hfw] at hf
      cases hf
      exact .inr ⟨r, hr, n, hn, hnr, ⟨v, hv⟩, rfl, rfl, rfl⟩

/-- A call that takes an early `continue` at most saves annotated values. -/
theorem processCall_earlyExit {s : Merge} {i : InstId} {called : Value} {args : List Value}
    {isTailCall : Bool} (hk : M.kind i = .call called args isTailCall)
    (h : M.earlyExit i = true) : processCall M reg funcMap s w called args isTailCall =
      .ok ({ s with sensitiveValues := s.sensitiveValues ++ M.annotates i }, true) := by
  unfold processCall
  cases called with
  | func g =>
    simp only [getCalledFunction]
    by_cases hva : (M.func g).intrinsic = some Intrinsic.varAnnotation
    · simp [Module.annotates, hk, hva]
    · have hann : M.annotates i = [] := by simp [Module.annotates, hk, hva]
      rw [hann, List.append_nil, if_neg hva]
      by_cases hdecl : ((M.func g).intrinsic.isSome || (M.func g).isDeclaration) = true
      · rw [if_pos hdecl]
      · rw [if_neg hdecl, if_pos]
        have hd := Bool.not_eq_true _ ▸ hdecl
        simpa only [Module.earlyExit, hk, getCalledFunction, hd, Bool.false_or] using h
  | inst _ | global _ | other _ => simp [getCalledFunction, Module.annotates, hk]

/-- Every other call is a direct call of a function with a body. -/
theorem exists_calls {i : InstId} {called : Value} {args : List Value} {isTailCall : Bool}
    (hk : M.kind i = .call called args isTailCall) (h : M.earlyExit i = false) :
    ∃ g, called = .func g ∧ isTailCall = false ∧ M.Calls i g := by
  cases called with
  | func g =>
    simp only [Module.earlyExit, hk, getCalledFunction, Bool.or_eq_false_iff] at h
    obtain ⟨⟨hint, hdef⟩, rfl⟩ := h
    exact ⟨g, rfl, rfl, by simpa using hint, hdef, args, hk⟩
  | inst _ | global _ | other _ => simp [Module.earlyExit, hk, getCalledFunction] at h

/-- What the call handling does for an instruction wrapper. -/
theorem visitCall_spec (reg : Registry) {s : Merge} {i : InstId}
    (hfm : ∀ g, M.Calls i g → ∃ fw, funcMap g = some fw) (hw : IsInst M i w)
    (hacc : s.access w = false) :
    ∃ s', visitCall M reg funcMap s w = .ok (s', M.earlyExit i) ∧
      (∀ w', w' ≠ w → s'.access w' = s.access w') ∧
      s'.sensitiveValues = s.sensitiveValues ++ M.annotates i ∧
      ∀ p q t, s'.pdg.HasLink p q t ↔ s.pdg.HasLink p q t ∨ CallLink M reg funcMap w i p q t := by
  -- a node that is no direct call of a function with a body adds no link
  have hskip : (∀ g, ¬ M.Calls i g) → ∀ p q t, s.pdg.HasLink p q t ↔
      s.pdg.HasLink p q t ∨ CallLink M reg funcMap w i p q t := by
    refine fun hno p q t => ⟨Or.inl, ?_⟩
    rintro (h | h)
    · exact h
    · cases h with
      | entry hc _ => exact absurd hc (hno _)
      | ret hc _ _ _ _ _ => exact absurd hc (hno _)
  by_cases hcall : (M.kind i).isCall = true
  · obtain ⟨called, args, isTailCall, hk⟩ : ∃ called args isTailCall,
        M.kind i = .call called args isTailCall := by
      cases hk : M.kind i with
      | call called args isTailCall => exact ⟨called, args, isTailCall, rfl⟩
      | _ => simp [hk, Kind.isCall] at hcall
    have hv : visitCall M reg funcMap s w =
        processCall M reg funcMap s w called args isTailCall := by
      simp [visitCall, hw.inst, hk, hw.type, hacc]
    rw [hv]
    by_cases he : M.earlyExit i = true
    · rw [processCall_earlyExit hk he, he]
      refine ⟨_, rfl, fun _ _ => rfl, rfl, hskip fun g hc => ?_⟩
      rw [hc.not_earlyExit] at he
      cases he
    · rw [Bool.not_eq_true] at he
      obtain ⟨g, rfl, rfl, hc⟩ := exists_calls hk he
      obtain ⟨fw, hfw⟩ := hfm g hc
      obtain ⟨pdg', hp, hl⟩ :=
        connectCallerAndCallee_spec reg s.pdg (w := w) hc hfw
      refine ⟨{ s with pdg := pdg', access := Function.update s.access w true }, ?_,
        fun w' hw' => Function.update_of_ne hw' _ _, ?_, hl⟩
      · simp only [processCall, getCalledFunction, hc.1, hc.2.1, hp, he]
        rfl
      · simp [Module.annotates, hk, hc.1]
  · refine ⟨s, ?_, fun _ _ => rfl, ?_, hskip ?_⟩
    · cases hk : M.kind i with
      | call _ _ _ => simp [hk, Kind.isCall] at hcall
      | _ => simp [visitCall, hw.inst, hk, Module.earlyExit]
    · cases hk : M.kind i with
      | call _ _ _ => simp [hk, Kind.isCall] at hcall
      | _ => simp [Module.annotates, hk]
    · rintro g ⟨_, _, args, hk⟩
      simp [hk, Kind.isCall] at hcall

/-- One iteration of the outer loop. -/
theorem visitNode_spec (ddg cdg : DependencyGraph WrapperPtr) (hinv : reg.Inv heap M)
    (hfm : ∀ i ∈ M.insts F, ∀ g, M.Calls i g → ∃ fw, funcMap g = some fw) {s : Merge}
    (hw : w ∈ reg.funcInstWList F) (hacc : s.access w = false) :
    ∃ s', visitNode M reg funcMap ddg cdg F s w = .ok s' ∧
      (∀ w', w' ≠ w → s'.access w' = s.access w') ∧
      (∀ v, v ∈ s'.sensitiveValues ↔
        v ∈ s.sensitiveValues ∨ ∃ i, w.inst = some i ∧ v ∈ M.annotates i) ∧
      ∀ p q t, s'.pdg.HasLink p q t ↔
        s.pdg.HasLink p q t ∨ NodeLink M reg funcMap ddg cdg F w p q t := by
  obtain ⟨_, ⟨i, hi, rfl⟩ | hentry⟩ := hinv.list_mem F w hw
  · have hwi := hinv.isInst hi
    have hiF : i ∈ M.insts (M.parent i) := (hinv.instMap_inst i _ hi).1.2
    obtain ⟨s1, hs1, hacc1, hsen1, hl1⟩ := visitCall_spec reg (hfm i hiF) hwi hacc
    have hcont : continues M w = M.earlyExit i := by simp [continues, hwi.inst]
    have hsen : ∀ v, v ∈ s1.sensitiveValues ↔
        v ∈ s.sensitiveValues ∨ ∃ j, w.inst = some j ∧ v ∈ M.annotates j := by
      simp [hsen1, hwi.inst]
    by_cases he : M.earlyExit i = true
    · refine ⟨s1, by simp only [visitNode, hs1, he]; rfl, hacc1, hsen, fun p q t => ?_⟩
      rw [hl1]
      refine or_congr_right ⟨.call hwi.inst, fun h => ?_⟩
      cases h with
      | @call j hj h =>
        rw [hwi.inst] at hj
        cases hj
        exact h
      | pair hc _ =>
        rw [hcont, he] at hc
        cases hc
    · rw [Bool.not_eq_true] at he
      refine ⟨{ s1 with
          pdg := (reg.funcInstWList (M.parent i)).foldl (linkPair M reg ddg cdg w) s1.pdg },
        by simp only [visitNode, hs1, he]; rfl, hacc1, hsen, fun p q t => ?_⟩
      rw [foldl_linkPair_link, hl1, or_assoc]
      refine or_congr_right ⟨?_, fun h => ?_⟩
      · rintro (h | h)
        · exact .call hwi.inst h
        · exact .pair (hcont.trans he) h
      · cases h with
        | @call j hj h =>
          rw [hwi.inst] at hj
          cases hj
          exact .inl h
        | pair _ h => exact .inr h
  · -- the ENTRY wrapper is no call node
    refine ⟨{ s with pdg := (reg.funcInstWList F).foldl (linkPair M reg ddg cdg w) s.pdg },
      by simp only [visitNode, visitCall, hentry.inst]; rfl, fun _ _ => rfl,
      by simp [hentry.inst], fun p q t => ?_⟩
    rw [foldl_linkPair_link]
    refine or_congr_right ⟨.pair (by simp [continues, hentry.inst]), fun h => ?_⟩
    cases h with
    | @call j hj h =>
      rw [hentry.inst] at hj
      cases hj
    | pair _ h => exact h

/-- The double loop for one function adds exactly the links of its iterations, and saves the values
the calls of the function annotate. -/
theorem merge_spec (ddg cdg : DependencyGraph WrapperPtr) (hinv : reg.Inv heap M)
    (hfm : ∀ i ∈ M.insts F, ∀ g, M.Calls i g → ∃ fw, funcMap g = some fw) {s : Merge}
    (hacc : ∀ w ∈ reg.funcInstWList F, s.access w = false) :
    ∃ s', merge M reg funcMap ddg cdg F s = .ok s' ∧
      (∀ w, w ∉ reg.funcInstWList F → s'.access w = s.access w) ∧
      (∀ v, v ∈ s'.sensitiveValues ↔ v ∈ s.sensitiveValues ∨
        ∃ w ∈ reg.funcInstWList F, ∃ i, w.inst = some i ∧ v ∈ M.annotates i) ∧
      ∀ p q t, s'.pdg.HasLink p q t ↔ s.pdg.HasLink p q t ∨
        ∃ w ∈ reg.funcInstWList F, NodeLink M reg funcMap ddg cdg F w p q t := by
  obtain ⟨s', hs', hacc', hsen', hl'⟩ := foldlM_invariant
    (f := visitNode M reg funcMap ddg cdg F) (l := reg.funcInstWList F) (s := s)
    (P := fun pre s' => (∀ w, w ∉ pre → s'.access w = s.access w) ∧
      (∀ v, v ∈ s'.sensitiveValues ↔ v ∈ s.sensitiveValues ∨
        ∃ w ∈ pre, ∃ i, w.inst = some i ∧ v ∈ M.annotates i) ∧
      ∀ p q t, s'.pdg.HasLink p q t ↔ s.pdg.HasLink p q t ∨
        ∃ w ∈ pre, NodeLink M reg funcMap ddg cdg F w p q t)
    (by simp) (by
      rintro pre w post s1 hx ⟨hacc1, hsen1, hl1⟩
      have hw : w ∈ reg.funcInstWList F := by simp [hx]
      have hnot : w ∉ pre := by
        have hnd := hinv.list_nodup F
        rw [hx, List.nodup_append] at hnd
        exact fun h => hnd.2.2 w h w (by simp) rfl
      obtain ⟨s2, hs2, hacc2, hsen2, hl2⟩ := visitNode_spec ddg cdg hinv hfm hw
        ((hacc1 w hnot).trans (hacc w hw))
      refine ⟨s2, hs2, fun w' hw' => ?_, fun v => ?_, fun p q t => ?_⟩
      · simp only [List.mem_append, List.mem_singleton, not_or] at hw'
        rw [hacc2 w' hw'.2, hacc1 w' hw'.1]
      · rw [hsen2, hsen1]
        simp [or_and_right, exists_or, or_assoc]
      · rw [hl2, hl1]
        simp [or_and_right, exists_or, or_assoc])
  exact ⟨s', hs', hacc', hsen', hl'⟩

end Spec

end PDG
end DepTaint
