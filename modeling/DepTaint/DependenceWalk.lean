import DepTaint.DependenceCache
import Mathlib.Logic.Relation

/-!
# DependenceWalk

`getNonLocalPointerDependency` as a machine, and the calls a client makes of the analysis.

`getNonLocalPointerDepFromBB` calls itself for a block whose predecessors see the pointer under
another value. A `Frame` holds the local variables of one activation, `Control` says which part of
it comes next, and `advance` executes that part; `Visited`, `Result` and the caches are shared.

* `State.Step`: any call while no walk is on, or the next part of the walk. `removeInstruction`
  comes with the function the client has made of it afterwards: instructions may have been added,
  and only the removed one may be missing.
* `State.Careful`: the step does not take the branch that treats a constant as an instruction, and
  does not overwrite a dependence that is registered.
-/

namespace DepTaint
namespace FlowDep

/-- An address and its translation over phi nodes. -/
structure PHITransAddr where
  Addr : Type
  /-- The constructor. -/
  ofPtr : Option Value → Addr
  getAddr : Addr → Option Value
  getAddr_ofPtr : ∀ p, getAddr (ofPtr p) = p
  needsPHITranslationFromBlock : Addr → BlockId → Bool
  isPotentiallyPHITranslatable : Addr → Bool
  pHITranslateValue : Addr → BlockId → BlockId → Addr

/-- What the analysis asks of other analyses. -/
structure Setting where
  AA : AliasAnalysis
  /-- `isReachableFromEntry`, when there is a dominator tree. -/
  DT : Option (BlockId → Bool)
  getPreds : BlockId → List BlockId
  phi : PHITransAddr

/-- The function after the client has dealt with the removal of `RemInst`. -/
def Function.Keeps {AA : AliasAnalysis} (F F' : Function AA) (RemInst : InstId) : Prop :=
  ∀ b, ((F.insts b).filter (· ≠ RemInst)).Sublist (F'.insts b)

structure NonLocalDepResult where
  BB : BlockId
  result : FlowDepResult
  address : Option Value
deriving DecidableEq

/-- `Visited`: the blocks inspected, with the pointer considered in each. -/
abbrev Visited := BlockId → Option (Option Value)

/-- The local variables of an activation. The back of `Worklist` is the head of the list. -/
structure Frame (S : Setting) where
  pointer : S.phi.Addr
  loc : Location
  skipFirstBlock : Bool
  worklist : List BlockId
  numSortedEntries : Nat

inductive Control (S : Setting) where
  /-- The call, before the cached record is looked up. -/
  | enter (pointer : S.phi.Addr) (loc : Location) (startBB : BlockId) (skipFirstBlock : Bool)
  /-- The record agrees with the query; the cached result may answer it. -/
  | lookup (pointer : S.phi.Addr) (loc : Location) (startBB : BlockId) (skipFirstBlock : Bool)
  /-- The head of the loop over the worklist. -/
  | iterate (f : Frame S)
  /-- `BB` is transparent or skipped: its predecessors come next. -/
  | transparent (f : Frame S) (BB : BlockId)
  /-- `PredTranslationFailure`. -/
  | failed (f : Frame S) (BB : BlockId)
  /-- The loop over `PredList`. -/
  | preds (f : Frame S) (predList : List (BlockId × S.phi.Addr))
  | ret (failed : Bool)

/-- An activation that waits for the call for its predecessor `pred`. -/
structure Suspended (S : Setting) where
  frame : Frame S
  pred : BlockId
  predPtrVal : Option Value
  predList : List (BlockId × S.phi.Addr)

structure Walk (S : Setting) where
  loc : Location
  isLoad : Bool
  fromBB : BlockId
  visited : Visited
  result : List NonLocalDepResult
  control : Control S
  stack : List (Suspended S)

section Walk

variable {S : Setting}

/-- `CacheKey`. -/
def Frame.key (f : Frame S) (isLoad : Bool) : ValueIsLoadPair := (S.phi.getAddr f.pointer, isLoad)

/-! ## The cached record -/

/-- The tags of the record and of the query. -/
def reconcileTBAATag (c : Caches) (P : ValueIsLoadPair) (loc : Location) :
    Except Fault (Caches × Option Location) :=
  let info := c.info P
  if info.tbaaTag ≠ loc.tbaaTag then do
    let c ← if info.tbaaTag.isSome then clearInfo c P { info with tbaaTag := none } else .ok c
    .ok (c, if loc.tbaaTag.isSome then some { loc with tbaaTag := none } else none)
  else .ok (c, none)

/-- Reconcile the cached record with the query; a location says how the query is restarted. -/
def reconcile (c : Caches) (P : ValueIsLoadPair) (loc : Location) :
    Except Fault (Caches × Option Location) :=
  match c.nonLocalPointerDeps P with
  | none => .ok (c.setInfo P { size := loc.size, tbaaTag := loc.tbaaTag }, none)
  | some info =>
    if info.size < loc.size then do
      let c ← clearInfo c P { info with size := loc.size }
      reconcileTBAATag c P loc
    else if info.size > loc.size then .ok (c, some { loc with size := info.size })
    else reconcileTBAATag c P loc

/-- The query makes the analysis throw the cached data of the record out. -/
def NonLocalPointerInfo.ClearedBy (info : NonLocalPointerInfo) (loc : Location) : Prop :=
  info.size < loc.size ∨
    (info.size = loc.size ∧ info.tbaaTag ≠ loc.tbaaTag ∧ info.tbaaTag.isSome)

instance (info : NonLocalPointerInfo) (loc : Location) : Decidable (info.ClearedBy loc) :=
  inferInstanceAs (Decidable (_ ∨ _))

/-- `Visited.insert`. -/
def Visited.insert (v : Visited) (BB : BlockId) (addr : Option Value) : Visited :=
  if (v BB).isSome then v else Function.update v BB (some addr)

/-- A cached entry as a result. -/
def cachedResult (S : Setting) (addr : Option Value) (e : NonLocalDepEntry) :
    Option NonLocalDepResult :=
  if e.result.isNonLocal then none
  else
    match S.DT with
    | none => some ⟨e.BB, .other .unknown, addr⟩
    | some isReachable => if isReachable e.BB then some ⟨e.BB, e.result, addr⟩ else none

/-! ## The predecessors of a block -/

/-- Mark the predecessors, each with its pointer; `none` when one has been seen with another. The
blocks are those seen for the first time. -/
def visitPreds (addr : BlockId → Option Value) :
    List BlockId → Visited → List BlockId → Option (Visited × List BlockId)
  | [], v, newBlocks => some (v, newBlocks)
  | p :: ps, v, newBlocks =>
    match v p with
    | none => visitPreds addr ps (Function.update v p (some (addr p))) (newBlocks ++ [p])
    | some a => if a ≠ addr p then none else visitPreds addr ps v newBlocks

/-! ## The parts of an activation -/

/-- The caches and the walk after a part, or the end of the query. -/
abbrev Advanced (S : Setting) := Caches × (Walk S ⊕ List NonLocalDepResult)

def Walk.enter (w : Walk S) (c : Caches) (pointer : S.phi.Addr) (loc : Location)
    (startBB : BlockId) (skip : Bool) : Except Fault (Advanced S) := do
  let (c, restart) ← reconcile c (S.phi.getAddr pointer, w.isLoad) loc
  match restart with
  | some loc => .ok (c, .inl { w with control := .enter pointer loc startBB skip })
  | none => .ok (c, .inl { w with control := .lookup pointer loc startBB skip })

def Walk.lookup (w : Walk S) (c : Caches) (pointer : S.phi.Addr) (loc : Location)
    (startBB : BlockId) (skip : Bool) : Advanced S :=
  let addr := S.phi.getAddr pointer
  let key := (addr, w.isLoad)
  let Cache := c.entries key
  if (c.info key).pair = some (startBB, skip) then
    if Cache.any fun e => (w.visited e.BB).any (· ≠ addr) then
      (c, .inl { w with control := .ret true })
    else
      (c, .inl { w with
        visited := Cache.foldl (fun v e => v.insert e.BB addr) w.visited
        result := w.result ++ Cache.filterMap (cachedResult S addr)
        control := .ret false })
  else
    let f : Frame S :=
      { pointer, loc, skipFirstBlock := skip, worklist := [startBB]
        numSortedEntries := Cache.length }
    (c.setPair key (if Cache = [] then some (startBB, skip) else none),
      .inl { w with control := .iterate f })

def Walk.iterate (F : Function S.AA) (w : Walk S) (c : Caches) (f : Frame S) :
    Except Fault (Advanced S) :=
  let key := f.key w.isLoad
  match f.worklist with
  | [] =>
    .ok (c.setEntries key (sortNonLocalDepInfoCache (c.entries key) f.numSortedEntries),
      .inl { w with control := .ret false })
  | BB :: worklist =>
    let f := { f with worklist := worklist }
    if f.skipFirstBlock then .ok (c, .inl { w with control := .transparent f BB })
    else if (w.visited BB).isNone then .error .notVisited
    else do
      let (Dep, c) ← getNonLocalInfoForBlock F c key f.loc w.isLoad BB f.numSortedEntries
      if Dep.isNonLocal then .ok (c, .inl { w with control := .transparent f BB })
      else
        match S.DT with
        | none =>
          .ok (c, .inl { w with
            result := w.result ++ [⟨BB, .other .unknown, S.phi.getAddr f.pointer⟩]
            control := .iterate f })
        | some isReachable =>
          if isReachable BB then
            .ok (c, .inl { w with
              result := w.result ++ [⟨BB, Dep, S.phi.getAddr f.pointer⟩]
              control := .iterate f })
          else .ok (c, .inl { w with control := .transparent f BB })

def Walk.transparent (w : Walk S) (c : Caches) (f : Frame S) (BB : BlockId) : Advanced S :=
  if !S.phi.needsPHITranslationFromBlock f.pointer BB then
    let f := { f with skipFirstBlock := false }
    match visitPreds (fun _ => S.phi.getAddr f.pointer) (S.getPreds BB) w.visited [] with
    | none => (c, .inl { w with control := .failed f BB })
    | some (visited, NewBlocks) =>
      (c, .inl { w with
        visited := visited
        control := .iterate { f with worklist := NewBlocks.reverse ++ f.worklist } })
  else if !S.phi.isPotentiallyPHITranslatable f.pointer then
    (c, .inl { w with control := .failed f BB })
  else
    let key := f.key w.isLoad
    let Cache := c.entries key
    let c := c.setEntries key (sortNonLocalDepInfoCache Cache f.numSortedEntries)
    let f := { f with numSortedEntries := Cache.length }
    let translated (Pred : BlockId) := S.phi.pHITranslateValue f.pointer BB Pred
    match visitPreds (fun Pred => S.phi.getAddr (translated Pred)) (S.getPreds BB) w.visited [] with
    | none => (c, .inl { w with control := .failed f BB })
    | some (visited, NewBlocks) =>
      (c, .inl { w with
        visited := visited
        control := .preds f (NewBlocks.map fun Pred => (Pred, translated Pred)) })

/-- The assertion that the entry of `BB` is transparent is left out: without assertions, the result
of the entry is overwritten whatever it is. -/
def Walk.failed (w : Walk S) (c : Caches) (f : Frame S) (BB : BlockId) :
    Except Fault (Advanced S) :=
  let key := f.key w.isLoad
  let c := c.setPair key none
  if f.skipFirstBlock then .ok (c, .inl { w with control := .ret true })
  else
    match setLastResult BB (.other .unknown) (c.entries key) with
    | none => .error .noCurrentBlock
    | some es =>
      .ok (c.setEntries key es, .inl { w with
        result := w.result ++ [⟨BB, .other .unknown, S.phi.getAddr f.pointer⟩]
        control := .iterate f })

def Walk.preds (w : Walk S) (c : Caches) (f : Frame S) (predList : List (BlockId × S.phi.Addr)) :
    Advanced S :=
  let key := f.key w.isLoad
  match predList with
  | [] =>
    let f := { f with skipFirstBlock := false, numSortedEntries := (c.entries key).length }
    (c.setPair key none, .inl { w with control := .iterate f })
  | (Pred, PredPointer) :: predList =>
    match S.phi.getAddr PredPointer with
    | none =>
      (c.setPair key none, .inl { w with
        result := w.result ++ [⟨Pred, .other .unknown, none⟩]
        control := .preds f predList })
    | some v =>
      (c, .inl { w with
        control := .enter PredPointer { f.loc with ptr := some v } Pred false
        stack := ⟨f, Pred, some v, predList⟩ :: w.stack })

def Walk.ret (w : Walk S) (c : Caches) (failed : Bool) : Advanced S :=
  match w.stack with
  | [] =>
    (c, .inr (if failed then w.result ++ [⟨w.fromBB, .other .unknown, w.loc.ptr⟩] else w.result))
  | s :: stack =>
    if failed then
      (c.setPair (s.frame.key w.isLoad) none, .inl { w with
        result := w.result ++ [⟨s.pred, .other .unknown, s.predPtrVal⟩]
        control := .preds s.frame s.predList
        stack := stack })
    else (c, .inl { w with control := .preds s.frame s.predList, stack := stack })

/-- Execute the part of the walk that comes next. -/
def Walk.advance (F : Function S.AA) (w : Walk S) (c : Caches) : Except Fault (Advanced S) :=
  match w.control with
  | .enter pointer loc startBB skip => w.enter c pointer loc startBB skip
  | .lookup pointer loc startBB skip => .ok (w.lookup c pointer loc startBB skip)
  | .iterate f => w.iterate F c f
  | .transparent f BB => .ok (w.transparent c f BB)
  | .failed f BB => w.failed c f BB
  | .preds f predList => .ok (w.preds c f predList)
  | .ret failed => .ok (w.ret c failed)

end Walk

/-! ## Careful steps -/

/-- No cached entry of `P` holds a constant of `OtherType`. -/
def NoMarker (c : Caches) (P : ValueIsLoadPair) : Prop :=
  ∀ e ∈ c.entries P, e.result.isMarker = false

instance (c : Caches) (P : ValueIsLoadPair) : Decidable (NoMarker c P) :=
  inferInstanceAs (Decidable (∀ e ∈ c.entries P, _))

/-- No entry of the pointer holds a constant, if the value is a pointer. -/
def NoMarkers (AA : AliasAnalysis) (c : Caches) (Ptr : Value) : Prop :=
  AA.isPointerTy Ptr = true → NoMarker c (some Ptr, false) ∧ NoMarker c (some Ptr, true)

/-- The condition of a part of a walk. -/
def Walk.Careful {S : Setting} (w : Walk S) (c : Caches) : Prop :=
  match w.control with
  | .enter pointer loc _ _ =>
    (c.info (S.phi.getAddr pointer, w.isLoad)).ClearedBy loc →
      NoMarker c (S.phi.getAddr pointer, w.isLoad)
  | .failed f BB =>
    f.skipFirstBlock = false →
      ∀ e ∈ c.entries (f.key w.isLoad), e.BB = BB → ∀ i, ¬ e.result.Names i
  | _ => True

/-! ## Calls -/

structure State (S : Setting) where
  F : Function S.AA
  caches : Caches
  walk : Option (Walk S)
  /-- The result vector of the last finished query. -/
  result : List NonLocalDepResult

inductive Action (S : Setting) where
  | getDependency (QueryInst : InstId)
  | getNonLocalPointerDependency (Loc : Location) (isLoad : Bool) (FromBB : BlockId)
  | invalidateCachedPointerInfo (Ptr : Value)
  | removeInstruction (RemInst : InstId) (F' : Function S.AA)
  /-- The walk goes on. -/
  | advance

namespace State

variable {S : Setting}

def initial (F : Function S.AA) : State S := { F, caches := {}, walk := none, result := [] }

/-- What the analysis is called with: instructions of the function, pointers, no call during a
walk. -/
def Enabled (s : State S) : Action S → Prop
  | .getDependency QueryInst => s.walk = none ∧ s.F.HasInst QueryInst
  | .getNonLocalPointerDependency Loc _ _ =>
    s.walk = none ∧ ∃ p, Loc.ptr = some p ∧ S.AA.isPointerTy p = true
  | .invalidateCachedPointerInfo _ => s.walk = none
  | .removeInstruction RemInst F' =>
    s.walk = none ∧ s.F.HasInst RemInst ∧ s.F.Keeps F' RemInst
  | .advance => s.walk ≠ none

def step (s : State S) : Action S → Except Fault (State S)
  | .getDependency QueryInst => do
    let (_, c) ← getDependency s.F s.caches QueryInst
    .ok { s with caches := c }
  | .getNonLocalPointerDependency Loc isLoad FromBB =>
    let w : Walk S :=
      { loc := Loc, isLoad, fromBB := FromBB, visited := fun _ => none, result := []
        control := .enter (S.phi.ofPtr Loc.ptr) Loc FromBB true, stack := [] }
    .ok { s with walk := some w }
  | .invalidateCachedPointerInfo Ptr => do
    let c ← invalidateCachedPointerInfo s.F s.caches Ptr
    .ok { s with caches := c }
  | .removeInstruction RemInst F' => do
    let c ← removeInstruction s.F s.caches RemInst
    .ok { s with F := F', caches := c }
  | .advance =>
    match s.walk with
    | none => .ok s
    | some w => do
      let (c, w) ← w.advance s.F s.caches
      match w with
      | .inl w => .ok { s with caches := c, walk := some w }
      | .inr result => .ok { s with caches := c, walk := none, result := result }

/-- The condition of a step, on the state before it. -/
def Careful (s : State S) : Action S → Prop
  | .getDependency QueryInst => FindsDependence s.F s.caches QueryInst
  | .getNonLocalPointerDependency .. => True
  | .invalidateCachedPointerInfo Ptr => NoMarkers S.AA s.caches Ptr
  | .removeInstruction RemInst _ => NoMarkers S.AA s.caches (.inst RemInst)
  | .advance => ∀ w, s.walk = some w → w.Careful s.caches

/-- A call of the client, or the next part of the walk. -/
def Step (s s' : State S) : Prop := ∃ a, s.Enabled a ∧ s.step a = .ok s'

def CarefulStep (s s' : State S) : Prop := ∃ a, s.Enabled a ∧ s.Careful a ∧ s.step a = .ok s'

end State

/-- The caches and their reverse maps are inverse to each other, and the reverse maps speak about
instructions of the function. -/
structure Caches.Inverse {AA : AliasAnalysis} (F : Function AA) (c : Caches) : Prop where
  local_key : ∀ p, (c.reverseLocalDeps p).isSome → ∃ i, p = .inst i ∧ F.HasInst i
  ptr_key : ∀ p, (c.reverseNonLocalPtrDeps p).isSome → ∃ i, p = .inst i ∧ F.HasInst i
  local_iff : ∀ i Q, c.reverseLocalDeps.Mem (.inst i) Q ↔
    ∃ r, c.localDeps Q = some r ∧ r.Names i
  ptr_iff : ∀ i P, c.reverseNonLocalPtrDeps.Mem (.inst i) P ↔
    ∃ e ∈ c.entries P, e.result.Names i

end FlowDep
end DepTaint
