import DepTaint.Base.Worklist
import DepTaint.DependenceWalk
import Mathlib.Algebra.BigOperators.Group.Finset.Basic

/-!
# CallDependence

`getNonLocalCallDependency`, its caches, and the removal of an instruction from all of the caches.

The entries of a call are computed once, from the predecessors of its block. When the removal of an
instruction makes some of them dirty, the next query scans the dirty ones again and goes on to the
predecessors of those that turn out to be transparent. An entry is recorded in the reverse map unless
it is `NonLocal`, so the constants `NonFuncLocal` and `Unknown` are recorded too, and the removal of
the call takes out all of them.

The assertion in front of a query asks for the local dependence of the call, so with assertions
`getNonLocalCallDependency` makes a local query first. What comes after it is `answerCall`, which is
all of the function in a build without assertions.
-/

namespace DepTaint
namespace FlowDep

/-- `PerInstNLInfo`: the entries, and whether some of them have been dirty. -/
structure PerInstNLInfo where
  first : List NonLocalDepEntry := []
  second : Bool := false

structure CallCaches where
  nonLocalDeps : InstId → Option PerInstNLInfo := fun _ => none
  reverseNonLocalDeps : ReverseMap InstPtr InstId := fun _ => none

/-- A function has finitely many blocks. -/
structure FiniteSetting extends Setting where
  blocks : Finset BlockId
  preds_mem : ∀ b, ∀ p ∈ getPreds b, p ∈ blocks

/-! ## getNonLocalCallDependency -/

/-- The local variables of a query. The back of `DirtyBlocks` is the head of the list. -/
structure CallScan where
  cache : List NonLocalDepEntry
  reverseNonLocalDeps : ReverseMap InstPtr InstId
  dirtyBlocks : List BlockId
  visited : List BlockId

section Query

variable (S : FiniteSetting) (F : Function S.AA) (QueryCS : InstId)

/-- Scan `DirtyBB` from `scanPos`, put the result among the entries and, if the block is transparent,
the predecessors on the worklist; otherwise remember the association. -/
def CallScan.scanFor (s : CallScan) (m : ReverseMap InstPtr InstId) (DirtyBB : BlockId)
    (scanPos : Option InstId) (put : NonLocalDepEntry → List NonLocalDepEntry) : CallScan :=
  let Dep :=
    if F.above DirtyBB scanPos ≠ [] then
      getCallSiteDependencyFrom F QueryCS (S.AA.onlyReadsMemory QueryCS) scanPos DirtyBB
    else F.atBegin DirtyBB
  if Dep.isNonLocal then
    { s with
      cache := put ⟨DirtyBB, Dep⟩
      reverseNonLocalDeps := m
      dirtyBlocks := (S.getPreds DirtyBB).reverse ++ s.dirtyBlocks }
  else
    { s with
      cache := put ⟨DirtyBB, Dep⟩
      reverseNonLocalDeps :=
        match Dep.getInst with
        | none => m
        | some Inst => m.insert Inst QueryCS }

/-- One iteration of the loop over `DirtyBlocks`. -/
def CallScan.updateBlock (NumSortedEntries : Nat) (s : CallScan) : Except Fault CallScan :=
  match s.dirtyBlocks with
  | [] => .ok s
  | DirtyBB :: dirtyBlocks =>
    if DirtyBB ∈ s.visited then .ok { s with dirtyBlocks := dirtyBlocks }
    else
      let s := { s with dirtyBlocks := dirtyBlocks, visited := DirtyBB :: s.visited }
      let m := s.reverseNonLocalDeps
      match findEntry (s.cache.take NumSortedEntries) DirtyBB with
      | none => .ok (s.scanFor S F QueryCS m DirtyBB none fun e => s.cache ++ [e])
      | some k =>
        match (s.cache[k]?.map NonLocalDepEntry.result).getD (.dirty none) with
        | .dirty none => .ok (s.scanFor S F QueryCS m DirtyBB none fun e => s.cache.set k e)
        | .dirty (some Inst) => do
          let m ← removeFromReverseMap m (.inst Inst) QueryCS
          .ok (s.scanFor S F QueryCS m DirtyBB (some Inst) fun e => s.cache.set k e)
        | _ => .ok s

/-- The predecessors that the blocks not yet visited can put on the worklist, and the blocks that are
on it. -/
def CallScan.pending (s : CallScan) : Nat :=
  s.dirtyBlocks.length + ∑ b ∈ S.blocks.filter (· ∉ s.visited), (S.getPreds b).length

/-- The loop; it ends when the worklist is empty. -/
def CallScan.updateBlocks (s : CallScan) : Except Fault CallScan :=
  iterM (CallScan.updateBlock S F QueryCS s.cache.length) (s.pending S) s

/-- `QueryCS` is in block `QueryBB`: the query before its loop. -/
def CallCaches.startScan (c : CallCaches) (CacheP : PerInstNLInfo) (QueryBB : BlockId) : CallScan :=
  if CacheP.first ≠ [] then
    { cache := CacheP.first.insertionSort fun a b => a.BB ≤ b.BB
      reverseNonLocalDeps := c.reverseNonLocalDeps
      dirtyBlocks := ((CacheP.first.filter fun e => e.result.isDirty).map NonLocalDepEntry.BB).reverse
      visited := [] }
  else
    { cache := []
      reverseNonLocalDeps := c.reverseNonLocalDeps
      dirtyBlocks := (S.getPreds QueryBB).reverse
      visited := [] }

/-- `getNonLocalCallDependency` after its assertion. -/
def answerCall (c : CallCaches) : Except Fault (List NonLocalDepEntry × CallCaches) :=
  let CacheP := (c.nonLocalDeps QueryCS).getD {}
  if CacheP.first ≠ [] ∧ CacheP.second = false then
    .ok (CacheP.first, c)
  else
    match F.getParent QueryCS with
    | none => .error .noParent
    | some QueryBB => do
      let s ← (c.startScan S CacheP QueryBB).updateBlocks S F QueryCS
      .ok (s.cache, {
        nonLocalDeps := Function.update c.nonLocalDeps QueryCS (some { CacheP with first := s.cache })
        reverseNonLocalDeps := s.reverseNonLocalDeps })

def getNonLocalCallDependency (c : Caches) (calls : CallCaches) :
    Except Fault (List NonLocalDepEntry × Caches × CallCaches) := do
  let (Dep, c) ← getDependency F c QueryCS
  if Dep.isNonLocal then do
    let (es, calls) ← answerCall S F QueryCS calls
    .ok (es, c, calls)
  else .error .localDependence

end Query

/-! ## removeInstruction -/

section Removal

variable {AA : AliasAnalysis} (F : Function AA)

/-- The loop that takes the entries of the removed instruction out of the reverse map. -/
def removeCallEntries (RemInst : InstId) (m : ReverseMap InstPtr InstId)
    (BlockMap : List NonLocalDepEntry) : Except Fault (ReverseMap InstPtr InstId) :=
  BlockMap.foldlM (fun m DI =>
    match DI.result.getInst with
    | none => .ok m
    | some Inst => removeFromReverseMap m Inst RemInst) m

/-- The cached non-local query of the removed instruction. -/
def removeCallDeps (c : CallCaches) (RemInst : InstId) : Except Fault CallCaches :=
  match c.nonLocalDeps RemInst with
  | none => .ok c
  | some info => do
    let m ← removeCallEntries RemInst c.reverseNonLocalDeps info.first
    .ok { nonLocalDeps := Function.update c.nonLocalDeps RemInst none, reverseNonLocalDeps := m }

/-- One call whose entries depend on the removed instruction, with the pairs to add later. -/
def dirtyCallDep (RemInst : InstId) (s : CallCaches × List (InstPtr × InstId)) (I : InstId) :
    CallCaches × List (InstPtr × InstId) :=
  let (c, ReverseDepsToAdd) := s
  let INLD := (c.nonLocalDeps I).getD {}
  let changed := INLD.first.filter fun e => e.result.getInst = some (.inst RemInst)
  let INLD : PerInstNLInfo := { first := INLD.first.map (dirtyEntry F RemInst), second := true }
  ({ c with nonLocalDeps := Function.update c.nonLocalDeps I (some INLD) },
    ReverseDepsToAdd ++ changed.filterMap fun _ =>
      (newDirtyVal F RemInst).getInst.map fun NextI => (NextI, I))

/-- The calls whose entries depend on the removed instruction. -/
def dirtyCallDeps (c : CallCaches) (RemInst : InstId) : CallCaches :=
  match c.reverseNonLocalDeps (.inst RemInst) with
  | none => c
  | some Set =>
    let (c, ReverseDepsToAdd) := Set.foldl (dirtyCallDep F RemInst) (c, [])
    { c with reverseNonLocalDeps :=
        (c.reverseNonLocalDeps.erase (.inst RemInst)).insertAll ReverseDepsToAdd.reverse }

/-- `removeInstruction` on all of the caches. Each of the last two loops asserts that none of the
queries it goes over is one of the removed instruction. -/
def removeFromAll (c : Caches) (calls : CallCaches) (RemInst : InstId) :
    Except Fault (Caches × CallCaches) := do
  let calls ← removeCallDeps calls RemInst
  let c ← removeLocalDep c RemInst
  let c ← invalidateCachedPointerInfo F c (.inst RemInst)
  let c ← dirtyLocalDeps F c RemInst
  if RemInst ∈ (calls.reverseNonLocalDeps (.inst RemInst)).getD [] then .error .reinserted
  else do
    let calls := dirtyCallDeps F calls RemInst
    if ((c.reverseNonLocalPtrDeps (.inst RemInst)).getD []).any (·.1 = some (.inst RemInst)) then
      .error .reinserted
    else if (calls.nonLocalDeps RemInst).isSome then .error .reinserted
    else .ok (dirtyPtrDeps F c RemInst, calls)

/-- The assertions of `verifyRemoved` on the results of queries: `D` is none of them, and nothing is
cached or recorded for it. -/
structure VerifyRemoved (c : Caches) (calls : CallCaches) (D : InstId) : Prop where
  localDeps : c.localDeps D = none ∧ ∀ Q r, c.localDeps Q = some r → r.getInst ≠ some (.inst D)
  nonLocalDeps : calls.nonLocalDeps D = none ∧ ∀ Q info, calls.nonLocalDeps Q = some info →
    ∀ e ∈ info.first, e.result.getInst ≠ some (.inst D)
  reverseLocalDeps : c.reverseLocalDeps (.inst D) = none ∧ ∀ p, ¬ c.reverseLocalDeps.Mem p D
  reverseNonLocalDeps : calls.reverseNonLocalDeps (.inst D) = none ∧
    ∀ p, ¬ calls.reverseNonLocalDeps.Mem p D

end Removal

/-! ## Calls -/

/-- The analysis between two calls of a client, or during a walk for a pointer. -/
structure ClientState (S : FiniteSetting) where
  base : State S.toSetting
  calls : CallCaches

inductive ClientAction (S : FiniteSetting) where
  /-- A call that leaves the entries of the calls alone, or the next part of a walk. -/
  | base (a : Action S.toSetting)
  | getNonLocalCallDependency (QueryCS : InstId)
  /-- The same in a build without assertions. -/
  | answerCall (QueryCS : InstId)
  /-- `F'` is the function without the instruction. -/
  | removeInstruction (RemInst : InstId) (F' : Function S.AA)

/-- `F'` is `F` without `RemInst`. -/
structure Function.Removes {AA : AliasAnalysis} (F F' : Function AA) (RemInst : InstId) : Prop where
  entryBlock : F'.entryBlock = F.entryBlock
  insts : ∀ b, F'.insts b = (F.insts b).filter (· ≠ RemInst)

namespace ClientState

variable {S : FiniteSetting}

def initial (F : Function S.AA) : ClientState S := { base := State.initial F, calls := {} }

/-- What the analysis is called with, as for `State`; between the calls the function only loses the
instruction that is removed. -/
def Enabled (s : ClientState S) : ClientAction S → Prop
  | .base a => s.base.Enabled a ∧ ∀ R F', a ≠ .removeInstruction R F'
  | .getNonLocalCallDependency QueryCS | .answerCall QueryCS =>
    s.base.walk = none ∧ s.base.F.HasInst QueryCS
  | .removeInstruction RemInst F' =>
    s.base.walk = none ∧ s.base.F.HasInst RemInst ∧ s.base.F.Removes F' RemInst

def step (s : ClientState S) : ClientAction S → Except Fault (ClientState S)
  | .base a => do
    let base ← s.base.step a
    .ok { s with base := base }
  | .getNonLocalCallDependency QueryCS => do
    let (_, c, calls) ←
      FlowDep.getNonLocalCallDependency S s.base.F QueryCS s.base.caches s.calls
    .ok { base := { s.base with caches := c }, calls := calls }
  | .answerCall QueryCS => do
    let (_, calls) ← FlowDep.answerCall S s.base.F QueryCS s.calls
    .ok { s with calls := calls }
  | .removeInstruction RemInst F' => do
    let (c, calls) ← removeFromAll s.base.F s.base.caches s.calls RemInst
    .ok { base := { s.base with F := F', caches := c }, calls := calls }

def Step (s s' : ClientState S) : Prop := ∃ a, s.Enabled a ∧ s.step a = .ok s'

end ClientState

end FlowDep
end DepTaint
