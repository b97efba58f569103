import DepTaint.DataDependencies

/-!
# DependenceScan

The block scans of the flow dependence analysis: `getPointerDependencyFrom` for a memory location
and `getCallSiteDependencyFrom` for a call walk up a block until the alias analysis finds a
dependence or `BlockScanLimit` instructions have been looked at.

`FlowDepResult` is the pair of a pointer and a tag that the scans return. Its pointer is an
instruction, null, or one of the three constants of `OtherType`; `getInst` returns all but null, as
the line that made it null for the constants is commented out.

* `scan_isDep_iff`: a scan ends in a dependence exactly when it meets one within its limit.
* `scan_dependsIn`: it returns an instruction it has walked over, or a constant.
-/

namespace DepTaint
namespace FlowDep

/-! ## Results -/

/-- `FlowDepResult::OtherType`. -/
inductive OtherType where
  | nonLocal
  | nonFuncLocal
  | unknown
deriving DecidableEq

/-- An `Instruction*` that is not null: an instruction, or a constant of `OtherType`, which are the
addresses 4, 8 and 12. -/
inductive InstPtr where
  | inst (i : InstId)
  | other (o : OtherType)
deriving DecidableEq

inductive FlowDepResult where
  /-- `Invalid`; the instruction, if there is one, is where a scan starts again. -/
  | dirty (scanPos : Option InstId)
  | clobber (i : InstId)
  | defn (i : InstId)
  | other (o : OtherType)
deriving DecidableEq

namespace FlowDepResult

def isDirty : FlowDepResult → Bool
  | .dirty _ => true
  | _ => false

def isNonLocal (r : FlowDepResult) : Bool := r = .other .nonLocal

/-- `isDef() || isClobber()`. -/
def isDep : FlowDepResult → Bool
  | .clobber _ | .defn _ => true
  | _ => false

/-- `getInst()`, without the test for `Other`. -/
def getInst : FlowDepResult → Option InstPtr
  | .dirty scanPos => scanPos.map .inst
  | .clobber i => some (.inst i)
  | .defn i => some (.inst i)
  | .other o => some (.other o)

/-- The result is a constant of `OtherType`. -/
def isMarker : FlowDepResult → Bool
  | .other _ => true
  | _ => false

/-- A Def, Clobber or dirty result that names `i`. -/
def Names (r : FlowDepResult) (i : InstId) : Prop :=
  r = .dirty (some i) ∨ r = .clobber i ∨ r = .defn i

instance (r : FlowDepResult) (i : InstId) : Decidable (r.Names i) :=
  inferInstanceAs (Decidable (_ ∨ _))

theorem Names.unique {r : FlowDepResult} {i j : InstId} (hi : r.Names i) (hj : r.Names j) :
    i = j := by
  rcases hi with rfl | rfl | rfl <;> simpa [Names] using hj

theorem getInst_eq_inst_iff {r : FlowDepResult} {i : InstId} :
    r.getInst = some (.inst i) ↔ r.Names i := by
  cases r <;> simp [getInst, Names]

theorem getInst_eq_other_iff {r : FlowDepResult} {o : OtherType} :
    r.getInst = some (.other o) ↔ r = .other o := by
  cases r <;> simp [getInst]

theorem isMarker_iff {r : FlowDepResult} : r.isMarker = true ↔ ∃ o, r = .other o := by
  cases r <;> simp [isMarker]

theorem isDep_iff {r : FlowDepResult} : r.isDep = true ↔ ∃ i, r = .clobber i ∨ r = .defn i := by
  cases r <;> simp [isDep]

end FlowDepResult

/-! ## The function and its alias analysis -/

/-- `AliasAnalysis::ModRefResult`. -/
inductive ModRefResult where
  | noModRef
  | ref
  | mod
  | modRef
deriving DecidableEq

/-- `MR & Mod`. -/
def ModRefResult.hasMod : ModRefResult → Bool
  | .mod | .modRef => true
  | _ => false

/-- `AliasAnalysis::Location`; the size is unknown unless given. -/
structure Location where
  ptr : Option Value := none
  size : Nat := 2 ^ 64 - 1
  tbaaTag : Option Nat := none
deriving DecidableEq

inductive AtomicOrdering where
  | notAtomic
  | unordered
  | monotonic
  | stronger
deriving DecidableEq

inductive IntrinsicID where
  | lifetimeStart
  | lifetimeEnd
  | invariantStart
  | invariantEnd
  | dbgInfo
  | other
deriving DecidableEq

/-- The instruction classes the scans tell apart; an intrinsic is a call. -/
inductive InstClass where
  | load (ordering : AtomicOrdering) (isVolatile isInvariant : Bool)
  | store (ordering : AtomicOrdering) (isVolatile : Bool)
  | vaArg
  | call (intrinsic : Option IntrinsicID)
  | invoke
  | alloca
  | other
deriving DecidableEq

structure MemInst where
  cls : InstClass
  /-- `getArgOperand(k)`. -/
  args : List Value := []
  /-- The metadata `MD_tbaa`. -/
  tbaa : Option Nat := none
  /-- The width of the type, when it is an integer type. -/
  integerBits : Option Nat := none
  alignment : Nat := 1
  isTerminator : Bool := false
  mayReadFromMemory : Bool := false
  mayWriteToMemory : Bool := false
  isFreeCall : Bool := false
  isNoAliasFn : Bool := false
  isMallocLikeFn : Bool := false
  isCallocLikeFn : Bool := false

/-- The answers of the alias analysis, and of the other analyses the scans ask about values. -/
structure AliasAnalysis where
  inst : InstId → MemInst
  /-- `getType()->isPointerTy()`. -/
  isPointerTy : Value → Bool
  getLocation : InstId → Location
  aliasLoc : Location → Location → AliasResult
  isMustAlias : Location → Location → Bool
  /-- `alias` and `isMustAlias` of two pointers. -/
  aliasPtr : Value → Option Value → AliasResult
  isMustAliasPtr : Value → Option Value → Bool
  getModRefInfo : InstId → Location → ModRefResult
  /-- `getModRefInfo` of two call sites. -/
  getModRefInfoCS : InstId → InstId → ModRefResult
  callCapturesBefore : InstId → Location → ModRefResult
  pointsToConstantMemory : Location → Bool
  onlyReadsMemory : InstId → Bool
  isIdenticalToWhenDefined : InstId → InstId → Bool
  getUnderlyingObject : Option Value → Option Value
  /-- Of the pointer operand, for a load. -/
  getPointerBaseWithConstantOffset : Option Value → Option Value × Int
  /-- The value of a constant operand. -/
  getZExtValue : Value → Nat
  /-- `DL.fitsInLegalInteger`, when there is a data layout. -/
  fitsInLegalInteger : Option (Nat → Bool)
  sanitizeThread : Bool
  sanitizeAddress : Bool

/-- The function the analysis runs on. A block ends in its only terminator. -/
structure Function (AA : AliasAnalysis) where
  entryBlock : BlockId
  insts : BlockId → List InstId
  getParent : InstId → Option BlockId
  getParent_iff : ∀ i b, getParent i = some b ↔ i ∈ insts b
  nodup : ∀ b, (insts b).Nodup
  terminated : ∀ b pre i post, insts b = pre ++ i :: post →
    ((AA.inst i).isTerminator = true ↔ post = [])

namespace Function

variable {AA : AliasAnalysis} (F : Function AA)

/-- `i` is an instruction of the function. -/
def HasInst (i : InstId) : Prop := (F.getParent i).isSome

instance (i : InstId) : Decidable (F.HasInst i) := inferInstanceAs (Decidable (_ = true))

/-- The instructions of `BB` from the one before `scanIt` up; without `scanIt`, from the end. -/
def above (BB : BlockId) : Option InstId → List InstId
  | none => (F.insts BB).reverse
  | some scanIt => ((F.insts BB).takeWhile (· ≠ scanIt)).reverse

/-- What a scan returns at the beginning of `BB`. -/
def atBegin (BB : BlockId) : FlowDepResult :=
  if BB ≠ F.entryBlock then .other .nonLocal else .other .nonFuncLocal

theorem atBegin_isMarker (BB : BlockId) : (F.atBegin BB).isMarker = true := by
  unfold atBegin
  split <;> rfl

end Function

namespace AtomicOrdering

/-- `isUnordered()`, given whether the access is volatile. -/
def isUnordered (ordering : AtomicOrdering) (isVolatile : Bool) : Bool :=
  (ordering = .notAtomic || ordering = .unordered) && !isVolatile

end AtomicOrdering

/-! ## The location of an instruction -/

section Scan

variable (AA : AliasAnalysis)

/-- `GetLocation`; a location without a pointer stands for `Location()`. -/
def getLocation (i : InstId) : ModRefResult × Location :=
  let I := AA.inst i
  match I.cls with
  | .load ordering isVolatile _ =>
    if ordering.isUnordered isVolatile then (.ref, AA.getLocation i)
    else if ordering = .monotonic then (.modRef, AA.getLocation i)
    else (.modRef, {})
  | .store ordering isVolatile =>
    if ordering.isUnordered isVolatile then (.mod, AA.getLocation i)
    else if ordering = .monotonic then (.modRef, AA.getLocation i)
    else (.modRef, {})
  | .vaArg => (.modRef, AA.getLocation i)
  | cls =>
    if I.isFreeCall then (.mod, { ptr := I.args[0]? })
    else
      let sized (ptr size : Nat) : ModRefResult × Location :=
        (.mod, { ptr := I.args[ptr]?, size := (I.args[size]?.map AA.getZExtValue).getD 0,
                 tbaaTag := I.tbaa })
      match cls with
      | .call (some .lifetimeStart) => sized 1 0
      | .call (some .lifetimeEnd) => sized 1 0
      | .call (some .invariantStart) => sized 1 0
      | .call (some .invariantEnd) => sized 2 1
      | _ =>
        if I.mayWriteToMemory then (.modRef, {})
        else if I.mayReadFromMemory then (.ref, {})
        else (.noModRef, {})

/-! ## One instruction of a scan -/

inductive Verdict where
  | pass
  | defn
  | clobber
deriving DecidableEq

/-- The loop of `getLoadLoadClobberFullWidthSize`. Every round doubles the width, which is positive
and may not exceed the alignment of the load, so `LoadAlign + 1` rounds are enough. -/
def widenTo (fits : Nat → Bool) (LIOffs MemLocEnd : Int) (LoadAlign : Nat) :
    Nat → Nat → Nat
  | 0, _ => 0
  | rounds + 1, NewLoadByteSize =>
    if NewLoadByteSize > LoadAlign || !fits (NewLoadByteSize * 8) then 0
    else if LIOffs + NewLoadByteSize > MemLocEnd && AA.sanitizeAddress then 0
    else if LIOffs + NewLoadByteSize ≥ MemLocEnd then NewLoadByteSize
    else widenTo fits LIOffs MemLocEnd LoadAlign rounds (NewLoadByteSize * 2)

def getLoadLoadClobberFullWidthSize (MemLocBase : Option Value) (MemLocOffs : Int)
    (MemLocSize : Nat) (LI : InstId) (fits : Nat → Bool) : Nat :=
  let I := AA.inst LI
  match I.cls, I.integerBits with
  | .load .notAtomic false _, some bits =>
    if AA.sanitizeThread then 0
    else
      let (LIBase, LIOffs) := AA.getPointerBaseWithConstantOffset (AA.getLocation LI).ptr
      let MemLocEnd := MemLocOffs + MemLocSize
      if LIBase ≠ MemLocBase then 0
      else if MemLocOffs < LIOffs then 0
      else if LIOffs + I.alignment < MemLocEnd then 0
      else widenTo AA fits LIOffs MemLocEnd I.alignment (I.alignment + 1)
        (2 ^ (Nat.log2 (bits / 8) + if bits / 8 = 0 then 0 else 1))
  | _, _ => 0

/-- `isLoadLoadClobberIfExtendedToFullWidth`; the size is passed as an `unsigned`. -/
def isLoadLoadClobberIfExtendedToFullWidth (MemLoc : Location) (LI : InstId) : Bool :=
  match AA.fitsInLegalInteger with
  | none => false
  | some fits =>
    let (MemLocBase, MemLocOffs) := AA.getPointerBaseWithConstantOffset MemLoc.ptr
    getLoadLoadClobberFullWidthSize AA MemLocBase MemLocOffs (MemLoc.size % 2 ^ 32) LI fits ≠ 0

/-- An instruction that is no load, store or lifetime marker, in `getPointerDependencyFrom`. -/
def modRefVerdict (MemLoc : Location) (isLoad : Bool) (i : InstId) : Verdict :=
  let MR := AA.getModRefInfo i MemLoc
  match (if MR = .modRef then AA.callCapturesBefore i MemLoc else MR) with
  | .noModRef => .pass
  | .mod => .clobber
  | .ref => if isLoad then .pass else .clobber
  | .modRef => .clobber

/-- The body of the loop of `getPointerDependencyFrom`, after the count. -/
def pointerVerdict (MemLoc : Location) (isLoad isInvariantLoad : Bool) (i : InstId) : Verdict :=
  let I := AA.inst i
  match I.cls with
  | .call (some .lifetimeStart) =>
    if AA.isMustAlias { ptr := I.args[1]? } MemLoc then .defn else .pass
  | .load ordering isVolatile _ =>
    if !ordering.isUnordered isVolatile then .clobber
    else
      let LoadLoc := AA.getLocation i
      let R := AA.aliasLoc LoadLoc MemLoc
      if isLoad then
        if R = .noAlias then
          match I.integerBits with
          | some bits =>
            if I.alignment * 8 > bits && isLoadLoadClobberIfExtendedToFullWidth AA MemLoc i then
              .clobber
            else .pass
          | none => .pass
        else if R = .mustAlias then .defn
        else .pass
      else if R = .noAlias then .pass
      else if AA.pointsToConstantMemory LoadLoc then .pass
      else .defn
  | .store ordering isVolatile =>
    if !ordering.isUnordered isVolatile then .clobber
    else if AA.getModRefInfo i MemLoc = .noModRef then .pass
    else
      match AA.aliasLoc (AA.getLocation i) MemLoc with
      | .noAlias => .pass
      | .mustAlias => .defn
      | _ => if isInvariantLoad then .pass else .clobber
  | cls =>
    if cls = .alloca || I.isNoAliasFn then
      let AccessPtr := AA.getUnderlyingObject MemLoc.ptr
      if AccessPtr = some (.inst i) || AA.isMustAliasPtr (.inst i) AccessPtr then .defn
      else if AA.aliasPtr (.inst i) AccessPtr ≠ .noAlias then .clobber
      else if cls = .alloca || I.isMallocLikeFn || I.isCallocLikeFn then .pass
      else modRefVerdict AA MemLoc isLoad i
    else modRefVerdict AA MemLoc isLoad i

/-- The body of the loop of `getCallSiteDependencyFrom`, after the count. -/
def callSiteVerdict (CS : InstId) (isReadOnlyCall : Bool) (i : InstId) : Verdict :=
  let (MR, Loc) := getLocation AA i
  if Loc.ptr.isSome then
    if AA.getModRefInfo CS Loc ≠ .noModRef then .clobber else .pass
  else
    match (AA.inst i).cls with
    | .call (some .dbgInfo) => .pass
    | .call _ | .invoke =>
      if AA.getModRefInfoCS CS i = .noModRef then
        if isReadOnlyCall && !MR.hasMod && AA.isIdenticalToWhenDefined CS i then .defn else .pass
      else .clobber
    | _ => if MR ≠ .noModRef then .clobber else .pass

/-! ## The scans -/

def blockScanLimit : Nat := 100

/-- Walk up a block. The instructions `skip` holds of are not looked at and not counted. -/
def scan (skip : InstId → Bool) (verdict : InstId → Verdict) (atBegin : FlowDepResult) :
    Nat → List InstId → FlowDepResult
  | _, [] => atBegin
  | limit, i :: above =>
    if skip i then scan skip verdict atBegin limit above
    else if limit - 1 = 0 then .other .unknown
    else
      match verdict i with
      | .pass => scan skip verdict atBegin (limit - 1) above
      | .defn => .defn i
      | .clobber => .clobber i

def isDbgInfo (i : InstId) : Bool := (AA.inst i).cls = .call (some .dbgInfo)

/-- The load has the metadata `MD_invariant_load`. -/
def isInvariantLoad (isLoad : Bool) (QueryInst : Option InstId) : Bool :=
  isLoad && QueryInst.any fun q =>
    match (AA.inst q).cls with
    | .load _ _ isInvariant => isInvariant
    | _ => false

/-- The scan of `scan` meets an instruction that is a dependence before its limit. -/
def Meets (skip : InstId → Bool) (verdict : InstId → Verdict) (limit : Nat) (above : List InstId) :
    Prop :=
  ∃ i ∈ (above.filter fun i => !skip i).take (limit - 1), verdict i ≠ .pass

instance (skip : InstId → Bool) (verdict : InstId → Verdict) (limit : Nat) (above : List InstId) :
    Decidable (Meets skip verdict limit above) :=
  inferInstanceAs (Decidable (∃ i ∈ List.take _ _, _))

section

variable {skip : InstId → Bool} {verdict : InstId → Verdict} {atBegin : FlowDepResult}

/-- What a scan of the instructions `above` can return: a dependence on one of them, or a
constant. -/
def DependsIn (above : List InstId) (r : FlowDepResult) : Prop :=
  (∃ i ∈ above, r = .clobber i ∨ r = .defn i) ∨ r.isMarker = true

theorem scan_dependsIn (hbegin : atBegin.isMarker = true) (limit : Nat) (above : List InstId) :
    DependsIn above (scan skip verdict atBegin limit above) := by
  induction above generalizing limit with
  | nil => exact .inr hbegin
  | cons i above ih =>
    have hlift : ∀ r, DependsIn above r → DependsIn (i :: above) r := by
      intro r h
      rcases h with ⟨j, hj, h⟩ | h
      · exact .inl ⟨j, List.mem_cons_of_mem _ hj, h⟩
      · exact .inr h
    unfold scan
    split
    · exact hlift _ (ih limit)
    · split
      · exact .inr rfl
      · split
        · exact hlift _ (ih (limit - 1))
        · exact .inl ⟨i, List.mem_cons_self .., .inr rfl⟩
        · exact .inl ⟨i, List.mem_cons_self .., .inl rfl⟩

theorem scan_isDep_iff (hbegin : atBegin.isMarker = true) (limit : Nat) (above : List InstId) :
    (scan skip verdict atBegin limit above).isDep = true ↔ Meets skip verdict limit above := by
  unfold Meets
  induction above generalizing limit with
  | nil =>
    obtain ⟨o, rfl⟩ := FlowDepResult.isMarker_iff.mp hbegin
    simp [scan, FlowDepResult.isDep]
  | cons i above ih =>
    unfold scan
    by_cases hskip : skip i = true
    · simp [hskip, ih]
    · rw [if_neg hskip, List.filter_cons_of_pos (by simpa using hskip)]
      by_cases hlimit : limit - 1 = 0
      · simp [hlimit, FlowDepResult.isDep]
      · obtain ⟨n, hn⟩ := Nat.exists_eq_succ_of_ne_zero hlimit
        rw [if_neg hlimit, hn, Nat.succ_eq_add_one, List.take_succ_cons, List.exists_mem_cons_iff]
        cases hv : verdict i with
        | pass => simp [ih]
        | defn => simp [FlowDepResult.isDep]
        | clobber => simp [FlowDepResult.isDep]

end

variable {AA}

def getPointerDependencyFrom (F : Function AA) (MemLoc : Location) (isLoad : Bool)
    (scanIt : Option InstId) (BB : BlockId) (QueryInst : Option InstId) : FlowDepResult :=
  scan (isDbgInfo AA) (pointerVerdict AA MemLoc isLoad (isInvariantLoad AA isLoad QueryInst))
    (F.atBegin BB) blockScanLimit (F.above BB scanIt)

def getCallSiteDependencyFrom (F : Function AA) (CS : InstId) (isReadOnlyCall : Bool)
    (scanIt : Option InstId) (BB : BlockId) : FlowDepResult :=
  scan (fun _ => false) (callSiteVerdict AA CS isReadOnlyCall) (F.atBegin BB) blockScanLimit
    (F.above BB scanIt)

section

variable {F : Function AA} {scanIt : Option InstId} {BB : BlockId}

theorem getPointerDependencyFrom_dependsIn (MemLoc : Location) (isLoad : Bool)
    (QueryInst : Option InstId) : DependsIn (F.above BB scanIt)
      (getPointerDependencyFrom F MemLoc isLoad scanIt BB QueryInst) :=
  scan_dependsIn (F.atBegin_isMarker BB) _ _

theorem getCallSiteDependencyFrom_dependsIn (CS : InstId) (isReadOnlyCall : Bool) :
    DependsIn (F.above BB scanIt) (getCallSiteDependencyFrom F CS isReadOnlyCall scanIt BB) :=
  scan_dependsIn (F.atBegin_isMarker BB) _ _

theorem getPointerDependencyFrom_isDep_iff {MemLoc : Location} {isLoad : Bool}
    {QueryInst : Option InstId} :
    (getPointerDependencyFrom F MemLoc isLoad scanIt BB QueryInst).isDep = true ↔
      Meets (isDbgInfo AA) (pointerVerdict AA MemLoc isLoad (isInvariantLoad AA isLoad QueryInst))
        blockScanLimit (F.above BB scanIt) :=
  scan_isDep_iff (F.atBegin_isMarker BB) _ _

theorem getCallSiteDependencyFrom_isDep_iff {CS : InstId} {isReadOnlyCall : Bool} :
    (getCallSiteDependencyFrom F CS isReadOnlyCall scanIt BB).isDep = true ↔
      Meets (fun _ => false) (callSiteVerdict AA CS isReadOnlyCall) blockScanLimit
        (F.above BB scanIt) :=
  scan_isDep_iff (F.atBegin_isMarker BB) _ _

end

end Scan

end FlowDep
end DepTaint
