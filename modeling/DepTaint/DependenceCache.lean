import DepTaint.Base.ReverseMap
import DepTaint.DependenceScan
import Mathlib.Data.List.Sort

/-!
# DependenceCache

The caches of the flow dependence analysis and the operations on them: `getDependency`,
`GetNonLocalInfoForBlock`, `RemoveCachedNonLocalPointerDependencies` and `removeInstruction`.

A cached result that names an instruction is recorded in a reverse map, so that the removal of the
instruction finds the results to be made dirty. `getDependency` records every result whose `getInst`
is not null, the walk for a pointer only a Def or a Clobber, and all of them take every pointer that
`getInst` returns out again.

`NonLocalDeps` and `ReverseNonLocalDeps` are filled by `getNonLocalCallDependency` only and are left
out.
-/

namespace DepTaint
namespace FlowDep

/-- A pointer and whether the query is for a load. -/
abbrev ValueIsLoadPair := Option Value × Bool

structure NonLocalDepEntry where
  BB : BlockId
  result : FlowDepResult
deriving DecidableEq

structure NonLocalPointerInfo where
  /-- The block a complete query started from and whether that block was skipped. -/
  pair : Option (BlockId × Bool) := none
  nonLocalDeps : List NonLocalDepEntry := []
  size : Nat := 2 ^ 64 - 1
  tbaaTag : Option Nat := none
deriving DecidableEq

structure Caches where
  localDeps : InstId → Option FlowDepResult := fun _ => none
  reverseLocalDeps : ReverseMap InstPtr InstId := fun _ => none
  nonLocalPointerDeps : ValueIsLoadPair → Option NonLocalPointerInfo := fun _ => none
  reverseNonLocalPtrDeps : ReverseMap InstPtr ValueIsLoadPair := fun _ => none

/-- An assertion that fails before a pointer that is not valid is followed. -/
inductive Fault where
  /-- `RemoveFromReverseMap` does not find the pair. -/
  | reverseMap (f : ReverseMap.Failure)
  /-- `getParent()` of a cached instruction is not the block of its entry. -/
  | instructionInvalidated
  /-- The query is for no instruction of the function. -/
  | noParent
  /-- `removeInstruction` finds a terminator, or the removed instruction, as a local dependence, or
  an empty set of them. -/
  | terminatorDependence
  /-- `Didn't find current block??` -/
  | noCurrentBlock
  /-- `Should check 'visited' before adding to WL` -/
  | notVisited
  /-- `getNonLocalCallDependency should only be used on calls with non-local deps!` -/
  | localDependence
  /-- `removeInstruction` finds the removed instruction again. -/
  | reinserted
deriving DecidableEq

namespace Caches

/-- `NonLocalPointerDeps[P]`. -/
def info (c : Caches) (P : ValueIsLoadPair) : NonLocalPointerInfo :=
  (c.nonLocalPointerDeps P).getD {}

/-- The cached entries of `P`. -/
def entries (c : Caches) (P : ValueIsLoadPair) : List NonLocalDepEntry := (c.info P).nonLocalDeps

def setInfo (c : Caches) (P : ValueIsLoadPair) (info : NonLocalPointerInfo) : Caches :=
  { c with nonLocalPointerDeps := Function.update c.nonLocalPointerDeps P (some info) }

def setPair (c : Caches) (P : ValueIsLoadPair) (pair : Option (BlockId × Bool)) : Caches :=
  c.setInfo P { c.info P with pair := pair }

def setEntries (c : Caches) (P : ValueIsLoadPair) (es : List NonLocalDepEntry) : Caches :=
  c.setInfo P { c.info P with nonLocalDeps := es }

section

variable {c : Caches} {P P' : ValueIsLoadPair} {info : NonLocalPointerInfo}
  {pair : Option (BlockId × Bool)} {es : List NonLocalDepEntry}

@[simp] theorem localDeps_setInfo : (c.setInfo P info).localDeps = c.localDeps := rfl

@[simp] theorem reverseLocalDeps_setInfo :
    (c.setInfo P info).reverseLocalDeps = c.reverseLocalDeps := rfl

@[simp] theorem reverseNonLocalPtrDeps_setInfo :
    (c.setInfo P info).reverseNonLocalPtrDeps = c.reverseNonLocalPtrDeps := rfl

@[simp] theorem info_setInfo : (c.setInfo P info).info P = info := by
  simp [Caches.info, setInfo]

theorem info_setInfo_of_ne (h : P' ≠ P) : (c.setInfo P info).info P' = c.info P' := by
  simp [Caches.info, setInfo, Function.update_of_ne h]

@[simp] theorem entries_setInfo : (c.setInfo P info).entries P = info.nonLocalDeps := by
  simp [entries]

theorem entries_setInfo_of_ne (h : P' ≠ P) : (c.setInfo P info).entries P' = c.entries P' := by
  simp [entries, info_setInfo_of_ne h]

@[simp] theorem entries_setEntries : (c.setEntries P es).entries P = es := by
  simp [setEntries]

theorem entries_setEntries_of_ne (h : P' ≠ P) : (c.setEntries P es).entries P' = c.entries P' :=
  entries_setInfo_of_ne h

@[simp] theorem entries_setPair : (c.setPair P pair).entries P' = c.entries P' := by
  by_cases h : P' = P
  · subst h
    simp [setPair, entries]
  · rw [setPair, entries_setInfo_of_ne h]

end

end Caches

/-- `RemoveFromReverseMap`. -/
def removeFromReverseMap {κ : Type} [DecidableEq κ] (m : ReverseMap InstPtr κ) (Inst : InstPtr)
    (Val : κ) : Except Fault (ReverseMap InstPtr κ) :=
  match m.remove Inst Val with
  | .error f => .error (.reverseMap f)
  | .ok m => .ok m

/-- The loops that take the entries of `P` out of the reverse map; `check` is what they assert. -/
def removeEntries (check : NonLocalDepEntry → InstPtr → Bool) (P : ValueIsLoadPair)
    (m : ReverseMap InstPtr ValueIsLoadPair) (es : List NonLocalDepEntry) :
    Except Fault (ReverseMap InstPtr ValueIsLoadPair) :=
  es.foldlM (fun m e =>
    match e.result.getInst with
    | none => .ok m
    | some Inst =>
      if check e Inst then removeFromReverseMap m Inst P else .error .instructionInvalidated) m

section Operations

variable {AA : AliasAnalysis} (F : Function AA)

/-! ## getDependency -/

/-- The scan of `getDependency`, from `ScanPos` in the block of the query. -/
def localDependency (QueryInst ScanPos : InstId) (QueryParent : BlockId) : FlowDepResult :=
  if (F.insts QueryParent).head? = some QueryInst then F.atBegin QueryParent
  else
    let (MR, MemLoc) := getLocation AA QueryInst
    let cls := (AA.inst QueryInst).cls
    if MemLoc.ptr.isSome then
      let isLoad := !MR.hasMod || cls = .call (some .lifetimeStart)
      getPointerDependencyFrom F MemLoc isLoad (some ScanPos) QueryParent (some QueryInst)
    else
      match cls with
      | .call _ | .invoke =>
        getCallSiteDependencyFrom F QueryInst (AA.onlyReadsMemory QueryInst) (some ScanPos)
          QueryParent
      | _ => .other .unknown

/-- The scan of `localDependency` meets a dependence. -/
def MeetsLocal (QueryInst ScanPos : InstId) (QueryParent : BlockId) : Prop :=
  let (MR, MemLoc) := getLocation AA QueryInst
  let cls := (AA.inst QueryInst).cls
  let above := F.above QueryParent (some ScanPos)
  (F.insts QueryParent).head? ≠ some QueryInst ∧
    if MemLoc.ptr.isSome then
      let isLoad := !MR.hasMod || cls = .call (some .lifetimeStart)
      Meets (isDbgInfo AA)
        (pointerVerdict AA MemLoc isLoad (isInvariantLoad AA isLoad (some QueryInst)))
        blockScanLimit above
    else
      match cls with
      | .call _ | .invoke =>
        Meets (fun _ => false) (callSiteVerdict AA QueryInst (AA.onlyReadsMemory QueryInst))
          blockScanLimit above
      | _ => False

/-- Scan from `ScanPos` and remember the result; `m` is the reverse map. -/
def scanLocal (c : Caches) (m : ReverseMap InstPtr InstId) (QueryInst ScanPos : InstId)
    (QueryParent : BlockId) : FlowDepResult × Caches :=
  let r := localDependency F QueryInst ScanPos QueryParent
  let m :=
    match r.getInst with
    | none => m
    | some I => m.insert I QueryInst
  (r, { c with localDeps := Function.update c.localDeps QueryInst (some r), reverseLocalDeps := m })

def getDependency (c : Caches) (QueryInst : InstId) : Except Fault (FlowDepResult × Caches) :=
  match (c.localDeps QueryInst).getD (.dirty none) with
  | .dirty scanPos => do
    let m ←
      match scanPos with
      | none => .ok c.reverseLocalDeps
      | some Inst => removeFromReverseMap c.reverseLocalDeps (.inst Inst) QueryInst
    match F.getParent QueryInst with
    | none => .error .noParent
    | some QueryParent => .ok (scanLocal F c m QueryInst (scanPos.getD QueryInst) QueryParent)
  | r => .ok (r, c)

/-- The query is answered from the cache, or its scan meets a dependence. -/
def FindsDependence (c : Caches) (QueryInst : InstId) : Prop :=
  match (c.localDeps QueryInst).getD (.dirty none) with
  | .dirty scanPos => ∃ QueryParent, F.getParent QueryInst = some QueryParent ∧
      MeetsLocal F QueryInst (scanPos.getD QueryInst) QueryParent
  | _ => True

/-! ## The entries of a pointer -/

/-- `std::upper_bound` in a sorted range. -/
def upperBound (Cache : List NonLocalDepEntry) (BB : BlockId) : Nat :=
  (Cache.takeWhile fun e => e.BB ≤ BB).length

/-- The search for the entry of `BB` among the sorted ones. -/
def findEntry (sorted : List NonLocalDepEntry) (BB : BlockId) : Option Nat :=
  let Entry := upperBound sorted BB
  let Entry :=
    if Entry ≠ 0 ∧ sorted[Entry - 1]?.map NonLocalDepEntry.BB = some BB then Entry - 1 else Entry
  if sorted[Entry]?.map NonLocalDepEntry.BB = some BB then some Entry else none

/-- Scan `BB` from `scanPos`, put the result among the entries of `CacheKey` and, if it is a Def or
a Clobber, remember the association in the reverse map `m`. -/
def scanForBlock (c : Caches) (m : ReverseMap InstPtr ValueIsLoadPair) (CacheKey : ValueIsLoadPair)
    (Loc : Location) (isLoad : Bool) (BB : BlockId) (scanPos : Option InstId)
    (put : NonLocalDepEntry → List NonLocalDepEntry) : FlowDepResult × Caches :=
  let Dep := getPointerDependencyFrom F Loc isLoad scanPos BB none
  let m :=
    match (if Dep.isDep then Dep.getInst else none) with
    | none => m
    | some Inst => m.insert Inst (Loc.ptr, isLoad)
  (Dep, { c.setEntries CacheKey (put ⟨BB, Dep⟩) with reverseNonLocalPtrDeps := m })

/-- `GetNonLocalInfoForBlock`; `Cache` is the list of `CacheKey`. -/
def getNonLocalInfoForBlock (c : Caches) (CacheKey : ValueIsLoadPair) (Loc : Location)
    (isLoad : Bool) (BB : BlockId) (NumSortedEntries : Nat) :
    Except Fault (FlowDepResult × Caches) :=
  let Cache := c.entries CacheKey
  let m := c.reverseNonLocalPtrDeps
  match findEntry (Cache.take NumSortedEntries) BB with
  | none => .ok (scanForBlock F c m CacheKey Loc isLoad BB none fun e => Cache ++ [e])
  | some k =>
    match (Cache[k]?.map NonLocalDepEntry.result).getD (.dirty none) with
    | .dirty none => .ok (scanForBlock F c m CacheKey Loc isLoad BB none fun e => Cache.set k e)
    | .dirty (some Inst) =>
      if F.getParent Inst ≠ some BB then .error .instructionInvalidated
      else do
        let m ← removeFromReverseMap m (.inst Inst) (Loc.ptr, isLoad)
        .ok (scanForBlock F c m CacheKey Loc isLoad BB (some Inst) fun e => Cache.set k e)
    | r => .ok (r, c)

/-- Take the last entry off and insert it where it belongs in `range` of the rest. -/
def insertBack (range : List NonLocalDepEntry → List NonLocalDepEntry)
    (Cache : List NonLocalDepEntry) : List NonLocalDepEntry :=
  match Cache.getLast? with
  | none => Cache
  | some Val => Cache.dropLast.insertIdx (upperBound (range Cache.dropLast) Val.BB) Val

/-- `SortNonLocalDepInfoCache`. -/
def sortNonLocalDepInfoCache (Cache : List NonLocalDepEntry) (NumSortedEntries : Nat) :
    List NonLocalDepEntry :=
  match Cache.length - NumSortedEntries with
  | 0 => Cache
  | 1 => insertBack id Cache
  | 2 => insertBack id (insertBack List.dropLast Cache)
  | _ => Cache.insertionSort fun a b => a.BB ≤ b.BB

/-- Set the result of the last entry for `BB`. -/
def setLastResult (BB : BlockId) (r : FlowDepResult) :
    List NonLocalDepEntry → Option (List NonLocalDepEntry)
  | [] => none
  | e :: es =>
    match setLastResult BB r es with
    | some es' => some (e :: es')
    | none => if e.BB = BB then some ({ e with result := r } :: es) else none

/-- Throw the cached data of `P` out and keep the record, with the size and the tag of `info`. -/
def clearInfo (c : Caches) (P : ValueIsLoadPair) (info : NonLocalPointerInfo) :
    Except Fault Caches := do
  let m ← removeEntries (fun _ _ => true) P c.reverseNonLocalPtrDeps (c.entries P)
  .ok { c.setInfo P { info with pair := none, nonLocalDeps := [] } with
    reverseNonLocalPtrDeps := m }

/-! ## invalidateCachedPointerInfo -/

/-- `Target->getParent()`; a constant of `OtherType` points to no instruction. -/
def parentOf : InstPtr → Option BlockId
  | .inst i => F.getParent i
  | .other _ => none

def removeCachedNonLocalPointerDependencies (c : Caches) (P : ValueIsLoadPair) :
    Except Fault Caches :=
  match c.nonLocalPointerDeps P with
  | none => .ok c
  | some info => do
    let m ← removeEntries (fun e Target => parentOf F Target = some e.BB) P
      c.reverseNonLocalPtrDeps info.nonLocalDeps
    .ok { c with nonLocalPointerDeps := Function.update c.nonLocalPointerDeps P none
                 reverseNonLocalPtrDeps := m }

def invalidateCachedPointerInfo (c : Caches) (Ptr : Value) : Except Fault Caches :=
  if AA.isPointerTy Ptr then do
    let c ← removeCachedNonLocalPointerDependencies F c (some Ptr, false)
    removeCachedNonLocalPointerDependencies F c (some Ptr, true)
  else .ok c

/-! ## removeInstruction -/

/-- `++BasicBlock::iterator(i)`. -/
def Function.next (i : InstId) : Option InstId :=
  (F.getParent i).bind fun b => ((F.insts b).dropWhile (· ≠ i)).tail.head?

/-- The cached local query of the removed instruction. -/
def removeLocalDep (c : Caches) (RemInst : InstId) : Except Fault Caches :=
  match c.localDeps RemInst with
  | none => .ok c
  | some r => do
    let m ←
      match r.getInst with
      | none => .ok c.reverseLocalDeps
      | some Inst => removeFromReverseMap c.reverseLocalDeps Inst RemInst
    .ok { c with localDeps := Function.update c.localDeps RemInst none, reverseLocalDeps := m }

/-- `NewDirtyVal`. -/
def newDirtyVal (RemInst : InstId) : FlowDepResult :=
  .dirty (if (AA.inst RemInst).isTerminator then none else F.next RemInst)

/-- The local queries that depend on the removed instruction. -/
def dirtyLocalDeps (c : Caches) (RemInst : InstId) : Except Fault Caches :=
  match c.reverseLocalDeps (.inst RemInst) with
  | none => .ok c
  | some ReverseDeps =>
    match (newDirtyVal F RemInst).getInst with
    | none => .error .terminatorDependence
    | some NewDirtyInst =>
      if ReverseDeps.isEmpty ∨ RemInst ∈ ReverseDeps then .error .terminatorDependence
      else
        .ok { c with
          localDeps := fun q =>
            if q ∈ ReverseDeps then some (newDirtyVal F RemInst) else c.localDeps q
          reverseLocalDeps := (c.reverseLocalDeps.erase (.inst RemInst)).insertAll
            (ReverseDeps.map fun q => (NewDirtyInst, q)).reverse }

/-- One entry of a pointer that may name the removed instruction. -/
def dirtyEntry (RemInst : InstId) (e : NonLocalDepEntry) : NonLocalDepEntry :=
  if e.result.getInst = some (.inst RemInst) then { e with result := newDirtyVal F RemInst } else e

/-- One pointer whose entries name the removed instruction, with the pairs to add later. -/
def dirtyPtrDep (RemInst : InstId) (s : Caches × List (InstPtr × ValueIsLoadPair))
    (P : ValueIsLoadPair) : Caches × List (InstPtr × ValueIsLoadPair) :=
  let (c, ReversePtrDepsToAdd) := s
  let NLPDI := c.entries P
  let changed := NLPDI.filter fun e => e.result.getInst = some (.inst RemInst)
  ((c.setPair P none).setEntries P
      ((NLPDI.map (dirtyEntry F RemInst)).insertionSort fun a b => a.BB ≤ b.BB),
    ReversePtrDepsToAdd ++ changed.filterMap fun _ =>
      (newDirtyVal F RemInst).getInst.map fun NewDirtyInst => (NewDirtyInst, P))

/-- The pointers whose entries name the removed instruction. -/
def dirtyPtrDeps (c : Caches) (RemInst : InstId) : Caches :=
  match c.reverseNonLocalPtrDeps (.inst RemInst) with
  | none => c
  | some Set =>
    let (c, ReversePtrDepsToAdd) := Set.foldl (dirtyPtrDep F RemInst) (c, [])
    { c with reverseNonLocalPtrDeps :=
        (c.reverseNonLocalPtrDeps.erase (.inst RemInst)).insertAll ReversePtrDepsToAdd.reverse }

def removeInstruction (c : Caches) (RemInst : InstId) : Except Fault Caches := do
  let c ← removeLocalDep c RemInst
  let c ← invalidateCachedPointerInfo F c (.inst RemInst)
  let c ← dirtyLocalDeps F c RemInst
  .ok (dirtyPtrDeps F c RemInst)

end Operations

end FlowDep
end DepTaint
