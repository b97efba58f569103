import DepTaint.DependencyGraph
import DepTaint.ParameterTrees

/-!
# ArgumentTrees

The four trees of an argument (`FunctionWrapper.h`, `ConnectFunctions.cpp`) and the links between
them, as they are with `PARAMETER_TREE` on (`ProgramDependencies.cpp`).

The formal-in tree is built, the other three are copies whose data is overwritten through two
iterators that advance together. The loops over several trees test one iterator for the end only. A
pre-order iterator is the list of the data from its node on, so that it is at the end when the list
is empty. The type of a field is never null, so the tests for that are left out.
-/

namespace DepTaint
namespace ParameterTree

/-- `TreeType`. -/
inductive TreeType where
  | actualIn
  | actualOut
  | formalIn
  | formalOut
deriving DecidableEq

structure ArgumentWrapper where
  arg : ArgId
  /-- `arg->getType()`. -/
  type : TypeId
  formalInTree : AppendTree FieldWrapper
  formalOutTree : AppendTree FieldWrapper
  actualInTree : AppendTree FieldWrapper
  actualOutTree : AppendTree FieldWrapper

namespace ArgumentWrapper

/-- `new ArgumentWrapper(arg)`. -/
def new (arg : ArgId × TypeId) : ArgumentWrapper := ⟨arg.1, arg.2, .empty, .empty, .empty, .empty⟩

def setTree (argW : ArgumentWrapper) (tree : AppendTree FieldWrapper) :
    TreeType → ArgumentWrapper
  | .formalIn => { argW with formalInTree := tree }
  | .formalOut => { argW with formalOutTree := tree }
  | .actualIn => { argW with actualInTree := tree }
  | .actualOut => { argW with actualOutTree := tree }

end ArgumentWrapper

/-- What goes wrong while trees are built or walked. -/
inductive WalkFault where
  | build (fault : Fault)
  /-- `exit(1)` on an empty source tree. -/
  | emptySource
  /-- The formal-in tree is copied onto itself with an uninitialised type. -/
  | uninitialized
  /-- `set_head` on a tree that has one. -/
  | hasHead
  /-- An iterator at the end is dereferenced or advanced. -/
  | pastEnd
  /-- `*nodes.find(w)` for a wrapper that is not in `nodes`. -/
  | unregistered
deriving DecidableEq

/-- The counter `id` and the registry `nodes`, between the operations on trees. -/
structure Memory where
  id : Int
  nodes : List FieldWrapper
  allocated : Nat

section Build

variable (types : TypeTable) (heap : Heap)

/-- The type of the wrappers of a copy. -/
def TreeType.instWTy : TreeType → Except WalkFault InstWrapperType
  | .formalIn => .error .uninitialized
  | .formalOut => .ok .formalOut
  | .actualIn => .ok .actualIn
  | .actualOut => .ok .actualOut

/-- The body of the loop of `copyTree`, for the data at `SI` and the node at `TI`. -/
def copyNode (instWTy : InstWrapperType) (s : State) (it : FieldWrapper × Nat) : State :=
  let typeFieldW : FieldWrapper :=
    { addr := heap.addr s.allocated, func := it.1.func, arg := it.1.arg,
      fieldType := it.1.fieldType, fieldId := s.id, type := instWTy }
  { id := s.id + 1
    nodes := setInsert FieldWrapper.addr typeFieldW s.nodes
    allocated := s.allocated + 1
    tree := s.tree.setData it.2 typeFieldW }

/-- `copyTree(srcTree, treeTy)`. -/
def copyTree (srcTree : AppendTree FieldWrapper) (treeTy : TreeType) (argW : ArgumentWrapper)
    (m : Memory) : Except WalkFault (ArgumentWrapper × Memory) :=
  if srcTree.size = 0 then .error .emptySource
  else
    match treeTy.instWTy with
    | .error e => .error e
    | .ok instWTy =>
      -- the assignment copies shape and data; then both trees are walked together
      let s := (srcTree.traversal.zip srcTree.preorder).foldl (copyNode heap instWTy)
        ⟨m.id, m.nodes, m.allocated, srcTree⟩
      .ok (argW.setTree s.tree treeTy, ⟨s.id, s.nodes, s.allocated⟩)

/-- The body of the loop of `buildFormalParameterTrees`. -/
def buildFormalTrees (callee : FuncId) (fuel : Nat) (argW : ArgumentWrapper) (m : Memory) :
    Except WalkFault (ArgumentWrapper × Memory) :=
  if argW.formalInTree.size ≠ 0 then .error .hasHead
  else
    match buildFormalTree types heap callee argW.arg fuel argW.type m.id m.nodes m.allocated with
    | .error e => .error (.build e)
    | .ok s =>
      copyTree heap s.tree .formalOut (argW.setTree s.tree .formalIn) ⟨s.id, s.nodes, s.allocated⟩

/-- A loop over the arguments that replaces each of them. -/
def forEachArg (body : ArgumentWrapper → Memory → Except WalkFault (ArgumentWrapper × Memory)) :
    List ArgumentWrapper → Memory → Except WalkFault (List ArgumentWrapper × Memory)
  | [], m => .ok ([], m)
  | argW :: argWs, m => do
    let (argW, m) ← body argW m
    let (argWs, m) ← forEachArg body argWs m
    return (argW :: argWs, m)

/-- `buildFormalParameterTrees(callee)` for a callee with `getArgWList() = argWList`. -/
def buildFormalParameterTrees (callee : FuncId) (fuel : Nat) (argWList : List ArgumentWrapper)
    (m : Memory) : Except WalkFault (List ArgumentWrapper × Memory) :=
  forEachArg (buildFormalTrees types heap callee fuel) argWList m

/-- `buildActualParameterTrees(CI)`: `argI` runs over the arguments of the call, `argFI` over those
of the callee, and the loop ends with the shorter list. -/
def buildActualParameterTrees :
    List ArgumentWrapper → List ArgumentWrapper → Memory →
      Except WalkFault (List ArgumentWrapper × Memory)
  | argI :: argIs, argFI :: argFIs, m => do
    let (argI, m) ← copyTree heap argFI.formalInTree .actualIn argI m
    let (argI, m) ← copyTree heap argFI.formalInTree .actualOut argI m
    let (argIs, m) ← buildActualParameterTrees argIs argFIs m
    return (argI :: argIs, m)
  | argIs, _, m => .ok (argIs, m)

end Build

/-! ## The links -/

/-- A node of the graph: the trees have wrappers of their own. -/
inductive NodePtr where
  | inst (w : WrapperPtr)
  | field (w : FieldWrapper)
deriving DecidableEq

abbrev Links := DependencyGraph NodePtr

/-- What the loops read besides the trees. -/
structure LinkContext where
  /-- The wrappers in `nodes` that belong to instructions. -/
  insts : List InstructionWrapper
  /-- The wrappers in `nodes` that belong to parameters. -/
  nodes : List FieldWrapper
  /-- `getValueOperand()->getType()` of a store. -/
  valueOperandType : InstId → TypeId
  /-- `getPointerOperand()->getType()->getContainedType(0)` of a load. -/
  pointeeType : InstId → TypeId
  /-- `getType()` of a load. -/
  loadType : InstId → TypeId

section Links

variable (ctx : LinkContext)

/-- `*it`. -/
def deref : List FieldWrapper → Except WalkFault FieldWrapper
  | [] => .error .pastEnd
  | w :: _ => .ok w

/-- `++it`. -/
def next : List FieldWrapper → Except WalkFault (List FieldWrapper)
  | [] => .error .pastEnd
  | _ :: it => .ok it

/-- `*InstructionWrapper::nodes.find(w)`. -/
def findNode (w : FieldWrapper) : Except WalkFault NodePtr :=
  if w ∈ ctx.nodes then .ok (.field w) else .error .unregistered

/-- For the instructions of a list with the type of a field, link the wrappers found for them. -/
def linkInsts (instList : List InstId) (type : InstId → TypeId) (fieldW : FieldWrapper)
    (link : Links → NodePtr → NodePtr → Links) (pdg : Links) : Except WalkFault Links :=
  instList.foldlM (fun pdg I =>
    if fieldW.fieldType = type I then
      (ctx.insts.filter fun nodeIt => nodeIt.inst = some I).foldlM (fun pdg nodeIt => do
        let fieldNode ← findNode ctx fieldW
        return link pdg fieldNode (.inst (.to nodeIt))) pdg
    else return pdg) pdg

/-- `PDG->addDependency(from, to, DATA_GENERAL)`, from the field or to it. -/
def addData (pdg : Links) (src dst : NodePtr) : Links :=
  pdg.addDependency src dst DependencyType.dataGeneral.toInt

/-- The loop over the formal trees of one argument, from two iterators on. -/
def connectFormalNodes (storeInstList loadInstList : List InstId) :
    List FieldWrapper → List FieldWrapper → Links → Except WalkFault Links
  | [], _, pdg => .ok pdg
  | formal_inW :: formal_in_TI, formal_out_TI, pdg => do
    let inNode ← findNode ctx formal_inW
    let formal_outW ← deref formal_out_TI
    let outNode ← findNode ctx formal_outW
    let pdg := pdg.addDependency inNode outNode DependencyType.parameter.toInt
    let pdg ← linkInsts ctx storeInstList ctx.valueOperandType formal_inW addData pdg
    let pdg ← linkInsts ctx loadInstList ctx.pointeeType formal_outW
      (fun pdg fieldNode nodeIt => addData pdg nodeIt fieldNode) pdg
    let formal_out_TI ← next formal_out_TI
    connectFormalNodes storeInstList loadInstList formal_in_TI formal_out_TI pdg

/-- Link a node to the roots of two trees. -/
def connectRoots (node : NodePtr) (inTree outTree : AppendTree FieldWrapper) (pdg : Links) :
    Except WalkFault Links := do
  let inW ← deref inTree.traversal
  let outW ← deref outTree.traversal
  let inNode ← findNode ctx inW
  let outNode ← findNode ctx outW
  let pdg := pdg.addDependency node inNode DependencyType.parameter.toInt
  return pdg.addDependency node outNode DependencyType.parameter.toInt

/-- `connectFunctionAndFormalTrees(callee)`. -/
def connectFunctionAndFormalTrees (entryW : WrapperPtr) (storeInstList loadInstList : List InstId)
    (argWList : List ArgumentWrapper) (pdg : Links) : Except WalkFault Links :=
  argWList.foldlM (fun pdg argI => do
    let pdg ← connectRoots ctx (.inst entryW) argI.formalInTree argI.formalOutTree pdg
    connectFormalNodes ctx storeInstList loadInstList argI.formalInTree.traversal
      argI.formalOutTree.traversal pdg) pdg

/-- The loop over the four trees of one argument, from four iterators on. -/
def connectFourTrees : List FieldWrapper → List FieldWrapper → List FieldWrapper →
    List FieldWrapper → Links → Except WalkFault Links
  | [], _, _, _, pdg => .ok pdg
  | actual_inW :: actual_in_TI, formal_in_TI, formal_out_TI, actual_out_TI, pdg => do
    let actualInNode ← findNode ctx actual_inW
    let formalInNode ← findNode ctx (← deref formal_in_TI)
    let pdg := pdg.addDependency actualInNode formalInNode DependencyType.parameter.toInt
    let formalOutNode ← findNode ctx (← deref formal_out_TI)
    let actualOutNode ← findNode ctx (← deref actual_out_TI)
    let pdg := pdg.addDependency formalOutNode actualOutNode DependencyType.parameter.toInt
    let formal_in_TI ← next formal_in_TI
    let formal_out_TI ← next formal_out_TI
    let actual_out_TI ← next actual_out_TI
    connectFourTrees actual_in_TI formal_in_TI formal_out_TI actual_out_TI pdg

/-- The loop over the arguments: only the list of the callee is tested for the end. -/
def connectArguments (callerLoads : List InstId) :
    List ArgumentWrapper → List ArgumentWrapper → Links → Except WalkFault Links
  | [], _, pdg => .ok pdg
  | _ :: _, [], _ => .error .pastEnd
  | formal_argI :: formal_argIs, actual_argI :: actual_argIs, pdg => do
    let pdg ← connectFourTrees ctx actual_argI.actualInTree.traversal
      formal_argI.formalInTree.traversal formal_argI.formalOutTree.traversal
      actual_argI.actualOutTree.traversal pdg
    let pdg ← actual_argI.actualOutTree.traversal.foldlM (fun pdg actual_outW =>
      linkInsts ctx callerLoads ctx.loadType actual_outW addData pdg) pdg
    connectArguments callerLoads formal_argIs actual_argIs pdg

/-- The part of `connectCallerAndCallee(InstW, callee)` under `#if PARAMETER_TREE` that walks the
trees of the call and of the callee. -/
def connectCallerAndCalleeTrees (InstW : InstructionWrapper) (callerLoads : List InstId)
    (formalArgs actualArgs : List ArgumentWrapper) (pdg : Links) : Except WalkFault Links := do
  let pdg ← actualArgs.foldlM (fun pdg argI =>
    connectRoots ctx (.inst (.to InstW)) argI.actualInTree argI.actualOutTree pdg) pdg
  connectArguments ctx callerLoads formalArgs actualArgs pdg

end Links

end ParameterTree
end DepTaint
