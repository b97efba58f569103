import Mathlib.Data.List.Basic
import Mathlib.Data.List.Nodup

/-!
# IR

The part of an LLVM module that the passes read. An `Instruction*`, `BasicBlock*`, `Function*` or
`GlobalVariable*` is a number, and the module says what each instruction and function pointer
points to. `Module` carries what the IR verifier checks, so a malformed module cannot be built.

* `Kind` keeps the operands of an instruction in the order of its operand list.
* `Instruction.line` is `getDebugLoc().getLine()`; a missing debug location reads as line 0, and
  the line field of a debug location has 24 bits.
-/

namespace DepTaint

abbrev InstId := Nat
abbrev BlockId := Nat
abbrev FuncId := Nat
abbrev GlobalId := Nat

/-- A `Value*`, as far as the passes tell values apart. -/
inductive Value where
  | inst (i : InstId)
  | global (g : GlobalId)
  | func (f : FuncId)
  | other (n : Nat)
deriving DecidableEq

/-- `Intrinsic::ID` of a function that is an intrinsic. -/
inductive Intrinsic where
  | varAnnotation
  | other
deriving DecidableEq

/-- The instruction classes the passes test with `isa<>`. `terminator` stands for every
terminator other than a branch and a return (switch, invoke, indirectbr, unreachable), `other`
for every remaining instruction. -/
inductive Kind where
  | alloca (arraySize : Value)
  | load (ptr : Value)
  | store (val ptr : Value)
  | call (called : Value) (args : List Value) (isTailCall : Bool)
  | bitcast (v : Value)
  | br (succ : BlockId)
  | condBr (cond : Value) (succ0 succ1 : BlockId)
  | ret (returnValue : Option Value)
  | terminator (ops : List Value) (succs : List BlockId)
  | other (ops : List Value)
deriving DecidableEq

namespace Kind

def operands : Kind → List Value
  | .alloca arraySize => [arraySize]
  | .load ptr => [ptr]
  | .store val ptr => [val, ptr]
  | .call called args _ => args ++ [called]
  | .bitcast v => [v]
  | .br _ => []
  | .condBr cond _ _ => [cond]
  | .ret returnValue => returnValue.toList
  | .terminator ops _ => ops
  | .other ops => ops

def successors : Kind → List BlockId
  | .br succ => [succ]
  | .condBr _ succ0 succ1 => [succ0, succ1]
  | .terminator _ succs => succs
  | _ => []

def isTerminator : Kind → Bool
  | .br _ | .condBr .. | .ret _ | .terminator .. => true
  | _ => false

def isAlloca : Kind → Bool
  | .alloca _ => true
  | _ => false

def isLoad : Kind → Bool
  | .load _ => true
  | _ => false

def isStore : Kind → Bool
  | .store .. => true
  | _ => false

def isCall : Kind → Bool
  | .call .. => true
  | _ => false

def isBitCast : Kind → Bool
  | .bitcast _ => true
  | _ => false

/-- `isa<BranchInst>`. -/
def isBranch : Kind → Bool
  | .br _ | .condBr .. => true
  | _ => false

/-- Instructions of void type: they have no users. -/
def isVoid : Kind → Bool
  | .store .. | .br _ | .condBr .. | .ret _ => true
  | _ => false

end Kind

structure Instruction where
  name : String
  line : BitVec 24
  kind : Kind
  /-- `getParent()->getParent()`. -/
  parent : FuncId
deriving DecidableEq

structure BasicBlock where
  id : BlockId
  insts : List InstId
deriving DecidableEq

structure Function where
  name : String
  /-- `getIntrinsicID()`, when the function is an intrinsic. -/
  intrinsic : Option Intrinsic := none
  blocks : List BasicBlock

namespace Function

/-- The intrinsic a compiler calls for an annotated local variable. -/
def varAnnotation : Function :=
  { name := "llvm.var.annotation", intrinsic := some Intrinsic.varAnnotation, blocks := [] }

def isDeclaration (F : Function) : Bool := F.blocks.isEmpty

/-- The instructions in the order of `inst_begin(F)`, `inst_end(F)`. -/
def insts (F : Function) : List InstId := F.blocks.flatMap BasicBlock.insts

end Function

/-- `getTerminator()`. -/
def BasicBlock.getTerminator (B : BasicBlock) : Option InstId := B.insts.getLast?

/-- A block ends in its only terminator. -/
def BasicBlock.WellFormed (inst : InstId → Instruction) (B : BasicBlock) : Prop :=
  ∃ t ∈ B.getTerminator, (inst t).kind.isTerminator = true ∧
    ∀ i ∈ B.insts.dropLast, (inst i).kind.isTerminator = false

instance (inst : InstId → Instruction) (B : BasicBlock) : Decidable (B.WellFormed inst) :=
  inferInstanceAs (Decidable (∃ t ∈ B.getTerminator, _))

/-- An operand that is an instruction belongs to the same function and yields a value; a called
or otherwise used function belongs to the module. -/
def Value.OperandOk (inst : InstId → Instruction) (functions : List FuncId) (insts : List InstId) :
    Value → Prop
  | .inst j => j ∈ insts ∧ (inst j).kind.isVoid = false
  | .func f => f ∈ functions
  | _ => True

instance (inst : InstId → Instruction) (functions : List FuncId) (insts : List InstId) (v : Value) :
    Decidable (v.OperandOk inst functions insts) :=
  match v with
  | .inst _ => inferInstanceAs (Decidable (_ ∧ _))
  | .func _ => inferInstanceAs (Decidable (_ ∈ _))
  | .global _ => .isTrue trivial
  | .other _ => .isTrue trivial

/-- A module, with the properties the IR verifier establishes. -/
structure Module where
  inst : InstId → Instruction
  func : FuncId → Function
  /-- The function list, in the order `M.begin()`, `M.end()` visits it. -/
  functions : List FuncId
  globals : List GlobalId
  /-- `llvm.global.annotations`: the annotated values with their annotation strings. -/
  annotations : List (Value × String)
  nodup : functions.Nodup ∧ globals.Nodup ∧ (functions.flatMap fun f => (func f).insts).Nodup := by
    decide
  blocks_nodup : ∀ f ∈ functions, ((func f).blocks.map BasicBlock.id).Nodup := by decide
  blocks_wf : ∀ f ∈ functions, ∀ B ∈ (func f).blocks, B.WellFormed inst := by decide
  successors_mem : ∀ f ∈ functions, ∀ i ∈ (func f).insts, ∀ b ∈ (inst i).kind.successors,
    b ∈ (func f).blocks.map BasicBlock.id := by decide
  operands_ok : ∀ f ∈ functions, ∀ i ∈ (func f).insts, ∀ v ∈ (inst i).kind.operands,
    v.OperandOk inst functions (func f).insts := by decide
  parent_eq : ∀ f ∈ functions, ∀ i ∈ (func f).insts, (inst i).parent = f := by decide
  intrinsic_declared : ∀ f ∈ functions, (func f).intrinsic.isSome → (func f).isDeclaration := by
    decide

namespace Module

variable (M : Module)

theorem functions_nodup : M.functions.Nodup := M.nodup.1

theorem globals_nodup : M.globals.Nodup := M.nodup.2.1

theorem insts_nodup : (M.functions.flatMap fun f => (M.func f).insts).Nodup := M.nodup.2.2

abbrev kind (i : InstId) : Kind := (M.inst i).kind

abbrev name (i : InstId) : String := (M.inst i).name

def line (i : InstId) : Nat := (M.inst i).line.toNat

abbrev parent (i : InstId) : FuncId := (M.inst i).parent

/-- The instructions of function `f`. -/
abbrev insts (f : FuncId) : List InstId := (M.func f).insts

/-- `i` is an instruction of a function of the module. -/
def HasInst (f : FuncId) (i : InstId) : Prop := f ∈ M.functions ∧ i ∈ M.insts f

instance (f : FuncId) (i : InstId) : Decidable (M.HasInst f i) :=
  inferInstanceAs (Decidable (_ ∧ _))

/-! ## The control flow graph -/

/-- The blocks of `f`, as pointers. -/
def blockIds (f : FuncId) : List BlockId := (M.func f).blocks.map BasicBlock.id

/-- The instructions of block `b` of `f`. -/
def blockInsts (f : FuncId) (b : BlockId) : List InstId :=
  (((M.func f).blocks.find? fun B => B.id == b).map BasicBlock.insts).getD []

def terminator (f : FuncId) (b : BlockId) : Option InstId := (M.blockInsts f b).getLast?

/-- `succ_begin(b)`, `succ_end(b)`. -/
def succs (f : FuncId) (b : BlockId) : List BlockId :=
  match M.terminator f b with
  | some t => (M.kind t).successors
  | none => []

/-- `getEntryBlock()`. -/
def entryBlock (f : FuncId) : Option BlockId := (M.blockIds f).head?

variable {M}

theorem HasInst.parent {f : FuncId} {i : InstId} (h : M.HasInst f i) : M.parent i = f :=
  M.parent_eq f h.1 i h.2

theorem HasInst.unique {f g : FuncId} {i : InstId} (hf : M.HasInst f i) (hg : M.HasInst g i) :
    f = g := hf.parent.symm.trans hg.parent

theorem blockInsts_eq {f : FuncId} (hf : f ∈ M.functions) {B : BasicBlock}
    (hB : B ∈ (M.func f).blocks) : M.blockInsts f B.id = B.insts := by
  have hnd := M.blocks_nodup f hf
  have hfind : (M.func f).blocks.find? (fun C => C.id == B.id) = some B := by
    cases hc : (M.func f).blocks.find? fun C => C.id == B.id with
    | none => simpa using List.find?_eq_none.mp hc B hB
    | some C =>
      have hid : C.id = B.id := by simpa using List.find?_some hc
      rw [List.inj_on_of_nodup_map hnd (List.mem_of_find?_eq_some hc) hB hid]
  simp [blockInsts, hfind]

/-- No block is empty. -/
theorem exists_mem_blockInsts {f : FuncId} (hf : f ∈ M.functions) {b : BlockId}
    (hb : b ∈ M.blockIds f) : ∃ i, i ∈ M.blockInsts f b := by
  obtain ⟨B, hB, rfl⟩ := List.mem_map.mp hb
  obtain ⟨t, ht, _⟩ := M.blocks_wf f hf B hB
  exact ⟨t, blockInsts_eq hf hB ▸ List.mem_of_getLast? ht⟩

end Module

end DepTaint
