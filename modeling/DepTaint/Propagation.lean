import Mathlib.Data.Finset.Dedup
import Mathlib.Data.Finset.Lattice.Basic
import Mathlib.Data.Finset.Insert
import DepTaint.Base.Worklist
import DepTaint.ProgramDependencies

/-!
# Propagation

The rest of `ProgramDependencyGraph::runOnModule`: seed selection, the worklist loop that
propagates taint along the PDG, and the report `printTaintValues` writes.

A step of the loop dequeues one wrapper and visits its links in order. Where the source
dereferences a null instruction, reads `*nodes.find(w)` of an unregistered pointer, or reads the
entry of a map that has none, the model returns the `Fault`; so a run that is not a fault met none
of these.
-/

namespace DepTaint
namespace PDG

/-! ## Seeds -/

section Seeds

variable (M : Module)

/-- `senGlobalSet`, as far as it is compared with the global list. -/
def senGlobalSet : List GlobalId :=
  M.annotations.filterMap fun a => match a with
    | (.global g, anno) => if anno = "tainted" then some g else none
    | _ => none

/-- The seeds one wrapper contributes: once for each equal entry of `sensitive_values`, and once if
it is the wrapper of an annotated global. -/
def sensitiveNodesOf (sensitiveValues : List Value) (InstW : InstructionWrapper) :
    List InstructionWrapper :=
  ((sensitiveValues.filter fun v => InstW.inst.map Value.inst = some v).map fun _ => InstW) ++
    if InstW.type = .globalValue then
      match InstW.value with
      | some (.global gv) => if gv ∈ senGlobalSet M then [InstW] else []
      | _ => []
    else []

/-- The loop over `nodes` that fills `sensitive_nodes`. -/
def findSensitiveNodes (sensitiveValues : List Value) (nodes : List InstructionWrapper) :
    List InstructionWrapper :=
  nodes.flatMap (sensitiveNodesOf M sensitiveValues)

abbrev TaintMap := InstId → Option (Finset String)

structure Seeds where
  taintMap : TaintMap
  funcMap : FuncMap
  senFuncSet : List FuncId

/-- The body of the loop over `sensitive_values`. -/
def seedValue (s : Seeds) : Value → Except Fault Seeds
  | .inst I => do
    let taintMap := Function.update s.taintMap I
      (some (insert (M.name I) ((s.taintMap I).getD ∅)))
    let senF := M.parent I
    let fw ← s.funcMap.get senF
    return {
      taintMap := taintMap
      funcMap := s.funcMap.set senF { fw with allocaMap := fw.allocaMap.insert I (M.line I) }
      senFuncSet := setInsert id senF s.senFuncSet }
  | _ => .error .nullInstruction

end Seeds

/-! ## The worklist loop -/

structure PropState where
  queue : List InstructionWrapper
  flag : InstructionWrapper → Bool
  coloredInstSet : InstructionWrapper → Bool
  taintMap : TaintMap
  funcMap : FuncMap
  pdg : DependencyGraph WrapperPtr

section Loop

variable (M : Module) (reg : Registry)

/-- `*nodes.find(p)` behind the test that the datum of a node is not null. -/
def findNode (p : WrapperPtr) : Except Fault (Option InstructionWrapper) :=
  match p with
  | .null => .ok none
  | .wild => .error .unregistered
  | .to w => if w ∈ reg.nodes then .ok (some w) else .error .unregistered

/-- An instruction pointer that is dereferenced or tested with `isa<>`. -/
def getInst (w : InstructionWrapper) : Except Fault InstId :=
  match w.inst with
  | some I => .ok I
  | none => .error .nullInstruction

/-- `isa<AllocaInst>(p)`. -/
def allocaOf (p : Value) : Option InstId :=
  match p with
  | .inst j => if (M.kind j).isAlloca then some j else none
  | _ => none

/-- The first loop over the links, which computes `isLoopBranch`; nothing reads it. -/
def findLoopBranch (flag : InstructionWrapper → Bool) (InstW : InstructionWrapper)
    (isLoopBranch : Bool) (link : WrapperPtr × Int) : Except Fault Bool := do
  match ← findNode reg link.1 with
  | none => return isLoopBranch
  | some adjacentInstW =>
    if flag adjacentInstW then
      let I ← getInst adjacentInstW
      if (M.kind I).isBranch ∧ adjacentInstW.inst = InstW.inst then return true
      else return isLoopBranch
    else return isLoopBranch

/-- `taintMap[I].insert(name)`. -/
def PropState.insertTaint (s : PropState) (I : InstId) (name : String) : PropState :=
  { s with
    taintMap := Function.update s.taintMap I (some (insert name ((s.taintMap I).getD ∅))) }

/-- A coloured node passes its names and its colour on; its instruction is printed. -/
def colorAdjacent (InstW : InstructionWrapper) (TaintValuesOnInstW : Finset String)
    (adjacentInstW : InstructionWrapper) (I : InstId) (s : PropState) : Except Fault PropState :=
  if s.coloredInstSet InstW then do
    let _ ← getInst InstW
    return { s with
      taintMap := Function.update s.taintMap I (some TaintValuesOnInstW)
      coloredInstSet := Function.update s.coloredInstSet adjacentInstW true }
  else .ok s

/-- The names of the allocas whose recorded line is below `line`. -/
def namesBelow (allocaMap : SortedMap InstId Nat) (line : Nat) : Finset String :=
  ((allocaMap.entries.filter fun e => e.2 < line).map fun e => M.name e.1).toFinset

/-- A branch collects the allocas that are tainted above it. Printing `taintMap[I]` afterwards
inserts an empty set if there is none. -/
def visitBranch (I : InstId) (s : PropState) : Except Fault PropState :=
  if (M.kind I).isBranch then do
    let fw ← s.funcMap.get (M.parent I)
    let names := (s.taintMap I).getD ∅ ∪ namesBelow M fw.allocaMap (M.line I)
    return { s with taintMap := Function.update s.taintMap I (some names) }
  else .ok s

/-- A store to an alloca. -/
def visitStore (InstW : InstructionWrapper) (I p : InstId) (s : PropState) :
    Except Fault PropState :=
  let s := s.insertTaint I (M.name p)
  if s.coloredInstSet InstW then do
    let _ ← getInst InstW
    let F := M.parent I
    let fw ← s.funcMap.get F
    let allocaMap :=
      if (fw.allocaMap.find? p).getD 0 = allocaMAX then fw.allocaMap.insert p (M.line I)
      else fw.allocaMap.touch p 0
    return { s with funcMap := s.funcMap.set F { fw with allocaMap := allocaMap } }
  else .ok s

/-- A load of an alloca. -/
def visitLoad (InstW : InstructionWrapper) (I p : InstId) (s : PropState) :
    Except Fault PropState := do
  let F := M.parent I
  let fw ← s.funcMap.get F
  let allocaMap := fw.allocaMap.touch p 0
  let s := { s with funcMap := s.funcMap.set F { fw with allocaMap := allocaMap } }
  if (fw.allocaMap.find? p).getD 0 < allocaMAX then
    let s := s.insertTaint I (M.name p)
    let SI ← getInst InstW
    if (M.kind SI).isStore then
      return { s with
        funcMap := s.funcMap.set F { fw with allocaMap := allocaMap.insert p (M.line SI) } }
    else return s
  else return s

/-- The store, load and other cases. -/
def visitMemory (InstW : InstructionWrapper) (I : InstId) (s : PropState) :
    Except Fault PropState :=
  match M.kind I with
  | .store _ ptr =>
    match allocaOf M ptr with
    | some p => visitStore M InstW I p s
    | none => .ok s
  | .load ptr =>
    match allocaOf M ptr with
    | some p => visitLoad M InstW I p s
    | none => .ok s
  | _ => if (s.taintMap I).isSome then .ok s else .error .missingTaint

/-- An adjacent wrapper that is not flagged yet. -/
def enqueue (InstW : InstructionWrapper) (TaintValuesOnInstW : Finset String)
    (adjacentInstW : InstructionWrapper) (I : InstId) (s : PropState) : Except Fault PropState := do
  let s ← colorAdjacent InstW TaintValuesOnInstW adjacentInstW I
    { s with
      queue := s.queue ++ [adjacentInstW]
      flag := Function.update s.flag adjacentInstW true }
  let s ← visitBranch M I s
  visitMemory M InstW I s

/-- The body of the second loop over the links. -/
def visitLink (InstW : InstructionWrapper) (TaintValuesOnInstW : Finset String) (s : PropState)
    (link : WrapperPtr × Int) : Except Fault PropState :=
  if link.2 = DependencyType.call.toInt then .ok s
  else do
    match ← findNode reg link.1 with
    | none => return s
    | some adjacentInstW =>
      let I ← getInst adjacentInstW
      if s.flag adjacentInstW then return s
      else enqueue M InstW TaintValuesOnInstW adjacentInstW I s

/-- `funcMap[InstW->getFunction()]->setVisited(true)`, for an INST wrapper. -/
def setVisited (InstW : InstructionWrapper) (s : PropState) : Except Fault PropState :=
  if InstW.type = .inst then
    match InstW.func with
    | none => .error .nullFunctionWrapper
    | some F => do
      let fw ← s.funcMap.get F
      return { s with funcMap := s.funcMap.set F { fw with visited := true } }
  else .ok s

/-- Dummy nodes and call nodes are not coloured when they are dequeued. -/
def colorSelf (InstW : InstructionWrapper) (s : PropState) : PropState :=
  match InstW.value with
  | none => s
  | some (.inst i) =>
    if (M.kind i).isCall then s
    else { s with coloredInstSet := Function.update s.coloredInstSet InstW true }
  | some _ => { s with coloredInstSet := Function.update s.coloredInstSet InstW true }

/-- `TaintValuesOnInstW`. -/
def taintValuesOn (InstW : InstructionWrapper) (s : PropState) : Finset String :=
  (InstW.inst.bind s.taintMap).getD ∅

/-- The body of the loop for the dequeued wrapper. -/
def dequeue (s : PropState) (InstW : InstructionWrapper) : Except Fault PropState := do
  let s ← setVisited InstW s
  let s := colorSelf M InstW s
  let s := { s with pdg := s.pdg.getNodeByData (.to InstW) }
  let links := s.pdg.linksFrom (.to InstW)
  let TaintValuesOnInstW := taintValuesOn InstW s
  let _ ← links.foldlM (findLoopBranch M reg s.flag InstW) false
  links.foldlM (visitLink M reg InstW TaintValuesOnInstW) s

/-- One iteration of `while(!queue.empty())`. -/
def iterate (s : PropState) : Except Fault PropState :=
  match s.queue with
  | [] => .ok s
  | InstW :: queue => dequeue M reg { s with queue := queue } InstW

/-- `n` iterations. -/
def propagate (n : Nat) (s : PropState) : Except Fault PropState := iterM (iterate M reg) n s

end Loop

/-! ## The report -/

/-- One line of the report: the source line and the names listed. -/
abbrev ReportEntry := Nat × List String

section Report

variable (M : Module)

/-- The names listed for source line `iPos`. -/
def namesUpTo (allocaMap : SortedMap InstId Nat) (iPos : Nat) : List String :=
  (allocaMap.entries.filter fun pv => pv.2 ≤ iPos).map fun pv => M.name pv.1

/-- The body of the instruction loop; the state is `prev` and the lines written so far. -/
def printInst (allocaMap : SortedMap InstId Nat) (s : Nat × List ReportEntry) (I : InstId) :
    Nat × List ReportEntry :=
  let iPos := M.line I
  if iPos = 0 ∧ s.1 ≠ 0 then s
  else if 0 < iPos ∧ iPos ≠ s.1 then
    if (M.kind I).isCall then s
    else (iPos, s.2 ++ [(iPos, namesUpTo M allocaMap iPos)])
  else s

/-- `printTaintValues(F, OS)`. -/
def printTaintValues (allocaMap : SortedMap InstId Nat) (F : FuncId) : List ReportEntry :=
  ((M.insts F).foldl (printInst M allocaMap) (0, [])).2

/-- `TaintValuesFile.txt`: the sensitive functions, each with its lines. -/
def report (funcMap : FuncMap) (senFuncSet : List FuncId) :
    Except Fault (List (FuncId × List ReportEntry)) :=
  senFuncSet.mapM fun F => do
    let fw ← funcMap.get F
    return (F, printTaintValues M fw.allocaMap F)

end Report

/-! ## The whole pass -/

/-- The static containers, and the booleans of the wrappers. -/
structure Statics where
  reg : Registry
  funcMap : FuncMap
  access : InstructionWrapper → Bool
  flag : InstructionWrapper → Bool
  sensitiveValues : List Value
  sensitiveNodes : List InstructionWrapper
  taintMap : TaintMap

/-- The statics when the process starts. -/
def Statics.fresh : Statics :=
  ⟨.empty, .empty, fun _ => false, fun _ => false, [], [], fun _ => none⟩

/-- What a run leaves: the registries, the seeds, the end of the propagation, and the report. -/
structure Result where
  built : State
  sensitiveNodes : List InstructionWrapper
  senFuncSet : List FuncId
  final : PropState
  taintValuesFile : List (FuncId × List ReportEntry)

section Run

variable (M : Module) (env : Env)

/-- The state in which the worklist loop starts, with `senFuncSet`. -/
def start (st : Statics) (s : State) : Except Fault (PropState × List FuncId) := do
  let nodes := st.sensitiveNodes ++ findSensitiveNodes M s.sensitiveValues s.reg.nodes
  let seeds ← s.sensitiveValues.foldlM (seedValue M) ⟨st.taintMap, s.funcMap, []⟩
  return ({
    queue := nodes
    flag := st.flag
    coloredInstSet := fun _ => false
    taintMap := seeds.taintMap
    funcMap := seeds.funcMap
    pdg := s.pdg }, seeds.senFuncSet)

/-- Every iteration dequeues one wrapper, and a wrapper is enqueued once: the loop ends within this
many iterations. -/
def iterations (reg : Registry) (p : PropState) : Nat := p.queue.length + reg.nodes.length

/-- `runOnModule(M)`. -/
def runOnModule (st : Statics) : Except Fault Result := do
  let s ← build M env
    ⟨st.reg, st.funcMap, .empty, .empty, .empty, st.access, st.sensitiveValues⟩
  let (p, senFuncSet) ← start M st s
  let final ← propagate M s.reg (iterations s.reg p) p
  let file ← report M final.funcMap senFuncSet
  return ⟨s, p.queue, senFuncSet, final, file⟩

end Run

end PDG
end DepTaint
