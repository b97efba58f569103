import DepTaint.Base.AppendTree
import DepTaint.Wrapper

/-!
# ParameterTrees

The formal tree of an argument (`ConnectFunctions.cpp`): one node for the argument, and below each
node of pointer type one child for every type contained in the pointee.

The builder finds the node to expand by searching the tree for the id of a `TypeWrapper`, and cuts
the expansion where a type repeats above its parent. It recurs on types, which may be cyclic, so
the model has fuel.
-/

namespace DepTaint

abbrev TypeId := Nat
abbrev ArgId := Nat

/-- An `llvm::Type`, as far as it is asked for its class and its contained types. -/
inductive TypeShape where
  | pointer (elementType : TypeId)
  | function (result : TypeId) (params : List TypeId)
  | struct (elements : List TypeId)
  | sequential (elementType : TypeId)
  | scalar

/-- The types of a context. Types are unique, so equal pointers are equal types. -/
structure TypeTable where
  shape : TypeId → TypeShape
  /-- What `OS << *ty` writes. -/
  print : TypeId → String

namespace TypeTable

/-- `getContainedType(i)` for all `i < getNumContainedTypes()`. -/
def containedTypes (types : TypeTable) (ty : TypeId) : List TypeId :=
  match types.shape ty with
  | .pointer elementType | .sequential elementType => [elementType]
  | .function result params => result :: params
  | .struct elements => elements
  | .scalar => []

/-- `isFunctionTy()` on the type a pointer points to. -/
def isFunctionPtr (types : TypeTable) (ty : TypeId) : Bool :=
  match types.shape ty with
  | .pointer elementType =>
    match types.shape elementType with
    | .function _ _ => true
    | _ => false
  | _ => false

/-- `isStructTy()` on the type a pointer points to. -/
def isStructPtr (types : TypeTable) (ty : TypeId) : Bool :=
  match types.shape ty with
  | .pointer elementType =>
    match types.shape elementType with
    | .struct _ => true
    | _ => false
  | _ => false

/-- `FILE*`, which is not expanded. -/
def isFile (types : TypeTable) (ty : TypeId) : Bool :=
  types.print ty = "%struct._IO_FILE*" || types.print ty = "%struct._IO_marker*"

/-- A field that is inserted into `unseparated_types` instead of being expanded. -/
def isUnseparated (types : TypeTable) (ty : TypeId) : Bool :=
  types.isFunctionPtr ty || types.isStructPtr ty && types.isFile ty

end TypeTable

/-- An `InstructionWrapper` of the constructor for arguments and their fields. -/
structure FieldWrapper where
  addr : Nat
  func : FuncId
  arg : ArgId
  fieldType : TypeId
  fieldId : Int
  type : InstWrapperType
deriving DecidableEq

structure TypeWrapper where
  ty : TypeId
  id : Int

namespace ParameterTree

inductive Fault where
  | outOfFuel
  /-- A child is appended at an iterator that was never set. -/
  | nullIterator
deriving DecidableEq

/-- The counter `id` (which never overflows here), the wrappers in `nodes` that belong to
parameters, and the tree of the argument. -/
structure State where
  id : Int
  nodes : List FieldWrapper
  allocated : Nat
  tree : AppendTree FieldWrapper

section Model

variable (types : TypeTable) (heap : Heap) (func : FuncId) (arg : ArgId)

/-- `new InstructionWrapper(arg->getParent(), arg, ty, id, type)`. -/
def fieldWrapper (s : State) (ty : TypeId) (type : InstWrapperType) : FieldWrapper where
  addr := heap.addr s.allocated
  func := func
  arg := arg
  fieldType := ty
  fieldId := s.id
  type := type

/-- The first node in pre-order that carries the id of `tyW`. -/
def insertLoc (tree : AppendTree FieldWrapper) (tyW : TypeWrapper) : Option Nat :=
  tree.preorder.find? fun treeIt => (tree.get? treeIt).any fun w => w.fieldId = tyW.id

/-- Allocate and register a field of type `ty`, and append it at `insert_loc`. -/
def appendField (s : State) (insert_loc : Option Nat) (ty : TypeId) : Except Fault State :=
  let typeFieldW := fieldWrapper heap func arg s ty .parameterField
  match insert_loc.bind fun p => s.tree.appendChild p typeFieldW with
  | none => .error .nullIterator
  | some tree => .ok {
      id := s.id + 1
      nodes := setInsert FieldWrapper.addr typeFieldW s.nodes
      allocated := s.allocated + 1
      tree := tree }

/-- `recursion_flag`: the type of `insert_loc` is that of an ancestor above its parent. -/
def recursionFlag (tree : AppendTree FieldWrapper) (insert_loc : Nat) : Bool :=
  let getFieldType i := (tree.get? i).map FieldWrapper.fieldType
  (tree.ancestors insert_loc).tail.any fun backTreeIt =>
    getFieldType insert_loc = getFieldType backTreeIt

/-- The body of the loop over the contained types; `build` is the recursive call. -/
def addField (build : TypeWrapper → State → Except Fault State) (insert_loc : Option Nat)
    (s : State) (ty : TypeId) : Except Fault State := do
  let tempTyW : TypeWrapper := ⟨ty, s.id⟩
  let s ← appendField heap func arg s insert_loc ty
  if insert_loc.any (recursionFlag s.tree) then return s
  else if types.isUnseparated ty then return s
  else build tempTyW s

/-- `buildFormalTypeTree(arg, tyW, treeTy)`; the result says nothing the callers read. -/
def buildFormalTypeTree : Nat → TypeWrapper → State → Except Fault State
  | 0, _, _ => .error .outOfFuel
  | fuel + 1, tyW, s =>
    match types.shape tyW.ty with
    | .pointer elementType =>
      (types.containedTypes elementType).foldlM
        (addField types heap func arg (buildFormalTypeTree fuel) (insertLoc s.tree tyW)) s
    | _ => .ok s

/-- `buildFormalTree(arg, treeTy)` for an argument of type `ty`, whose tree is empty before. -/
def buildFormalTree (fuel : Nat) (ty : TypeId) (id : Int) (nodes : List FieldWrapper)
    (allocated : Nat) : Except Fault State := do
  let treeTyW : FieldWrapper :=
    { addr := heap.addr allocated, func := func, arg := arg, fieldType := ty, fieldId := id,
      type := .formalIn }
  let tyW : TypeWrapper := ⟨ty, id⟩
  let s : State :=
    { id := id + 1, nodes := setInsert FieldWrapper.addr treeTyW nodes,
      allocated := allocated + 1, tree := .head treeTyW }
  let s ← if types.isFile ty || types.isFunctionPtr ty then .ok s
    else buildFormalTypeTree types heap func arg fuel tyW s
  return { s with id := 0 }

end Model

end ParameterTree
end DepTaint
