import DepTaint.WalkCoverage

/-!
# WalkRuns

Queries for pointers in runs of the analysis: local queries, queries of calls, walks and removals in
any order.

The local results have no part in a query for a pointer, so what they register does not matter:
`State.pointers` forgets them, and its steps are careful whenever those of the analysis are sound.
From there the entries of the pointers agree with their reverse map, and a removal finds all that
name the instruction.

* `pointer_queries_answered`: the result of a query misses no dependence on any path backwards.
* `pointer_queries_end`: a query goes through to its end, after a bounded number of parts.
-/

namespace DepTaint
namespace FlowDep

open Relation

/-! ## The caches of the pointers -/

section Pointers

variable {S : Setting} {F : Function S.AA} {c c' : Caches} {P : ValueIsLoadPair} {w : Walk S}

/-- The caches without the local results. -/
def Caches.pointers (c : Caches) : Caches :=
  { c with localDeps := fun _ => none, reverseLocalDeps := fun _ => none }

/-- A result that comes with caches, without the local results. -/
def forgetLocals {α : Type} (r : Caches × α) : Caches × α := (r.1.pointers, r.2)

theorem clearInfo_pointers (info : NonLocalPointerInfo) :
    clearInfo c.pointers P info = (clearInfo c P info).map Caches.pointers := by
  show (removeEntries _ P c.reverseNonLocalPtrDeps (c.entries P) >>= _) =
    Except.map _ (removeEntries _ P c.reverseNonLocalPtrDeps (c.entries P) >>= _)
  cases removeEntries (fun _ _ => true) P c.reverseNonLocalPtrDeps (c.entries P) <;> rfl

theorem reconcileTBAATag_pointers (loc : Location) :
    reconcileTBAATag c.pointers P loc = (reconcileTBAATag c P loc).map forgetLocals := by
  unfold reconcileTBAATag
  have hinfo : c.pointers.info P = c.info P := rfl
  simp only [hinfo]
  split
  · split
    · rw [clearInfo_pointers]
      cases clearInfo c P { c.info P with tbaaTag := none } <;> rfl
    · rfl
  · rfl

theorem reconcile_pointers (loc : Location) :
    reconcile c.pointers P loc = (reconcile c P loc).map forgetLocals := by
  unfold reconcile
  have hinfo : c.pointers.nonLocalPointerDeps P = c.nonLocalPointerDeps P := rfl
  rw [hinfo]
  split
  · rfl
  · rename_i info _
    split
    · rw [clearInfo_pointers]
      cases clearInfo c P { info with size := loc.size } with
      | error e => rfl
      | ok c1 => exact reconcileTBAATag_pointers loc
    · split
      · rfl
      · exact reconcileTBAATag_pointers loc

theorem getNonLocalInfoForBlock_pointers (Loc : Location) (isLoad : Bool) (BB : BlockId) (n : Nat) :
    getNonLocalInfoForBlock F c.pointers P Loc isLoad BB n =
      (getNonLocalInfoForBlock F c P Loc isLoad BB n).map fun r => (r.1, r.2.pointers) := by
  unfold getNonLocalInfoForBlock
  have hentries : c.pointers.entries P = c.entries P := rfl
  have hrev : c.pointers.reverseNonLocalPtrDeps = c.reverseNonLocalPtrDeps := rfl
  simp only [hentries, hrev]
  split
  · rfl
  · split
    · rfl
    · split
      · rfl
      · rename_i Inst _ _
        cases removeFromReverseMap c.reverseNonLocalPtrDeps (.inst Inst) (Loc.ptr, isLoad) <;> rfl
    · rfl

theorem enter_pointers {pointer : S.phi.Addr} {loc : Location} {startBB : BlockId} {skip : Bool} :
    w.enter c.pointers pointer loc startBB skip =
      (w.enter c pointer loc startBB skip).map forgetLocals := by
  unfold Walk.enter
  rw [reconcile_pointers]
  cases reconcile c (S.phi.getAddr pointer, w.isLoad) loc with
  | error e => rfl
  | ok r =>
    obtain ⟨c1, restart⟩ := r
    cases restart <;> rfl

theorem lookup_pointers {pointer : S.phi.Addr} {loc : Location} {startBB : BlockId} {skip : Bool} :
    w.lookup c.pointers pointer loc startBB skip =
      forgetLocals (w.lookup c pointer loc startBB skip) := by
  unfold Walk.lookup
  have hinfo : ∀ P, c.pointers.info P = c.info P := fun _ => rfl
  have hentries : ∀ P, c.pointers.entries P = c.entries P := fun _ => rfl
  simp only [hinfo, hentries]
  split
  · split <;> rfl
  · rfl

theorem iterate_pointers {f : Frame S} :
    w.iterate F c.pointers f = (w.iterate F c f).map forgetLocals := by
  unfold Walk.iterate
  split
  · rfl
  · dsimp only
    split
    · rfl
    · split
      · rfl
      rename_i BB worklist _ _ _
      rw [getNonLocalInfoForBlock_pointers]
      cases getNonLocalInfoForBlock F c (f.key w.isLoad) f.loc w.isLoad BB f.numSortedEntries with
      | error e => exact rfl
      | ok r =>
        obtain ⟨Dep, c1⟩ := r
        show (if Dep.isNonLocal then _ else _) = Except.map _ (if Dep.isNonLocal then _ else _)
        split
        · rfl
        · cases S.DT with
          | none => rfl
          | some isReachable =>
            dsimp only
            split <;> rfl

theorem transparent_pointers {f : Frame S} {BB : BlockId} :
    w.transparent c.pointers f BB = forgetLocals (w.transparent c f BB) := by
  unfold Walk.transparent
  split
  · dsimp only
    split <;> rfl
  · split
    · rfl
    · dsimp only
      split <;> rfl

theorem failed_pointers {f : Frame S} {BB : BlockId} :
    w.failed c.pointers f BB = (w.failed c f BB).map forgetLocals := by
  unfold Walk.failed
  have hentries : (c.pointers.setPair (f.key w.isLoad) none).entries (f.key w.isLoad) =
    (c.setPair (f.key w.isLoad) none).entries (f.key w.isLoad) := rfl
  simp only [hentries]
  split
  · rfl
  · split <;> rfl

theorem preds_pointers {f : Frame S} {predList : List (BlockId × S.phi.Addr)} :
    w.preds c.pointers f predList = forgetLocals (w.preds c f predList) := by
  unfold Walk.preds
  split
  · rfl
  · split <;> rfl

theorem ret_pointers {failed : Bool} : w.ret c.pointers failed = forgetLocals (w.ret c failed) := by
  unfold Walk.ret
  split
  · rfl
  · split <;> rfl

/-- A walk does not look at the local results. -/
theorem advance_pointers : w.advance F c.pointers = (w.advance F c).map forgetLocals := by
  unfold Walk.advance
  split
  · exact enter_pointers
  · exact congrArg Except.ok lookup_pointers
  · exact iterate_pointers
  · exact congrArg Except.ok transparent_pointers
  · exact failed_pointers
  · exact congrArg Except.ok preds_pointers
  · exact congrArg Except.ok ret_pointers

theorem removeCached_pointers : removeCachedNonLocalPointerDependencies F c.pointers P =
    (removeCachedNonLocalPointerDependencies F c P).map Caches.pointers := by
  unfold removeCachedNonLocalPointerDependencies
  have hinfo : c.pointers.nonLocalPointerDeps P = c.nonLocalPointerDeps P := rfl
  rw [hinfo]
  split
  · rfl
  · rename_i info _
    show (removeEntries _ P c.reverseNonLocalPtrDeps info.nonLocalDeps >>= _) =
      Except.map _ (removeEntries _ P c.reverseNonLocalPtrDeps info.nonLocalDeps >>= _)
    cases removeEntries (fun e Target => parentOf F Target = some e.BB) P c.reverseNonLocalPtrDeps
      info.nonLocalDeps <;> rfl

theorem invalidate_pointers (Ptr : Value) : invalidateCachedPointerInfo F c.pointers Ptr =
    (invalidateCachedPointerInfo F c Ptr).map Caches.pointers := by
  unfold invalidateCachedPointerInfo
  split
  · rw [removeCached_pointers]
    cases removeCachedNonLocalPointerDependencies F c (some Ptr, false) with
    | error e => rfl
    | ok c1 => exact removeCached_pointers
  · rfl

theorem foldl_dirtyPtrDep_pointers (R : InstId) (Set : List ValueIsLoadPair)
    (s : Caches × List (InstPtr × ValueIsLoadPair)) :
    Set.foldl (dirtyPtrDep F R) (forgetLocals s) =
      forgetLocals (Set.foldl (dirtyPtrDep F R) s) := by
  induction Set generalizing s with
  | nil => rfl
  | cons P Set ih => exact ih (dirtyPtrDep F R s P)

theorem dirtyPtrDeps_pointers (R : InstId) :
    dirtyPtrDeps F c.pointers R = (dirtyPtrDeps F c R).pointers := by
  unfold dirtyPtrDeps
  have hrev : c.pointers.reverseNonLocalPtrDeps = c.reverseNonLocalPtrDeps := rfl
  rw [hrev]
  split
  · rfl
  · rename_i Set _
    have hfold := foldl_dirtyPtrDep_pointers (F := F) R Set (c, [])
    have hstart : forgetLocals (c, ([] : List (InstPtr × ValueIsLoadPair))) = (c.pointers, []) := rfl
    rw [hstart] at hfold
    rw [hfold]
    rfl

theorem getDependency_pointers {Q : InstId} {r : FlowDepResult × Caches}
    (h : getDependency F c Q = .ok r) : r.2.pointers = c.pointers := by
  unfold getDependency at h
  split at h
  · dsimp only at h
    split at h
    all_goals
      obtain ⟨m, _, h⟩ := bind_eq_ok.mp h
      split at h
      · cases h
      · cases h
        rfl
  · cases h
    rfl

theorem removeLocalDep_pointers {R : InstId} (h : removeLocalDep c R = .ok c') :
    c'.pointers = c.pointers := by
  unfold removeLocalDep at h
  split at h
  · cases h
    rfl
  · dsimp only at h
    split at h
    all_goals
      obtain ⟨m, _, h⟩ := bind_eq_ok.mp h
      cases h
      rfl

theorem dirtyLocalDeps_pointers {R : InstId} (h : dirtyLocalDeps F c R = .ok c') :
    c'.pointers = c.pointers := by
  unfold dirtyLocalDeps at h
  split at h
  · cases h
    rfl
  · split at h
    · cases h
    · split at h
      · cases h
      · cases h
        rfl

/-- A removal, without the local results. -/
theorem removeInstruction_pointers {R : InstId} (h : removeInstruction F c R = .ok c') :
    removeInstruction F c.pointers R = .ok c'.pointers := by
  obtain ⟨c1, h1, h⟩ := bind_eq_ok.mp h
  obtain ⟨c2, h2, h⟩ := bind_eq_ok.mp h
  obtain ⟨c3, h3, h⟩ := bind_eq_ok.mp h
  cases h
  have hc2 : invalidateCachedPointerInfo F c.pointers (.inst R) = .ok c2.pointers := by
    rw [← removeLocalDep_pointers h1, invalidate_pointers, h2]
    rfl
  refine bind_eq_ok.mpr ⟨c.pointers, rfl, bind_eq_ok.mpr ⟨c2.pointers, hc2,
    bind_eq_ok.mpr ⟨c2.pointers, rfl, ?_⟩⟩⟩
  rw [← dirtyLocalDeps_pointers h3, dirtyPtrDeps_pointers]

/-! ## Sound steps -/

def State.pointers (s : State S) : State S := { s with caches := s.caches.pointers }

/-- The assertion of a part: an entry that is overwritten is for a transparent block. -/
def Walk.Asserted (w : Walk S) (c : Caches) : Prop :=
  match w.control with
  | .failed f BB =>
    f.skipFirstBlock = false →
      ∀ e ∈ c.entries (f.key w.isLoad), e.BB = BB → e.result.isNonLocal = true
  | _ => True

theorem Walk.Sound.asserted (h : w.Sound c) : w.Asserted c := by
  unfold Walk.Asserted
  split
  next f BB hw => simpa only [Walk.Sound, hw] using h
  next => trivial

/-- A part that goes through is careful, if its assertion holds. -/
theorem Walk.Asserted.careful (hinv : WalkInv F c w) (hasserted : w.Asserted c) {r : Advanced S}
    (hr : w.advance F c = .ok r) : w.Careful c := by
  unfold Walk.Careful
  split
  next pointer loc startBB skip hw =>
    have henter : w.enter c pointer loc startBB skip = .ok r := by
      simpa only [Walk.advance, hw] using hr
    simpa only [Walk.Careful, hw] using (enter_spec hinv hw).2 r henter
  next f BB hw =>
    simp only [Walk.Asserted, hw] at hasserted
    intro hskip e he hBB i hi
    have hnl := hasserted hskip e he hBB
    rcases hi with hi | hi | hi <;> rw [hi] at hnl <;> cases hnl
  next => trivial

/-- A step of the analysis is careful for the pointers, if it goes through and its assertion holds. -/
theorem stateInv_pointers {s s' : State S} {a : Action S} (hinv : StateInv s.pointers)
    (ha : s.Enabled a)
    (hasserted : a = .advance → ∀ w, s.walk = some w → w.Asserted s.caches)
    (hs : s.step a = .ok s') : StateInv s'.pointers := by
  have hcareful : s.pointers.Careful a → s.pointers.step a = .ok s'.pointers →
      StateInv s'.pointers := by
    intro hcareful hstep
    obtain ⟨t, ht, hinv'⟩ := (step_spec hinv (a := a) ha).1 hcareful
    rw [hstep] at ht
    cases ht
    exact hinv'
  cases a with
  | getDependency Q =>
    obtain ⟨⟨r, c⟩, hc, hs⟩ := bind_eq_ok.mp hs
    cases hs
    have hsame : c.pointers = s.caches.pointers := getDependency_pointers hc
    have heq : State.pointers { s with caches := c } = s.pointers := by
      simp only [State.pointers, hsame]
    rw [heq]
    exact hinv
  | getNonLocalPointerDependency Loc isLoad FromBB =>
    cases hs
    exact hcareful trivial rfl
  | invalidateCachedPointerInfo Ptr =>
    obtain ⟨c, hc, hs⟩ := bind_eq_ok.mp hs
    cases hs
    have hc' : invalidateCachedPointerInfo s.F s.caches.pointers Ptr = .ok c.pointers := by
      rw [invalidate_pointers, hc]
      rfl
    exact hcareful ((invalidateCachedPointerInfo_spec hinv.consistent Ptr).2 _ hc')
      (bind_eq_ok.mpr ⟨_, hc', rfl⟩)
  | removeInstruction R F' =>
    obtain ⟨c, hc, hs⟩ := bind_eq_ok.mp hs
    cases hs
    have hc' := removeInstruction_pointers hc
    obtain ⟨hcons, hsorted⟩ := hinv.idle ha.1
    exact hcareful ((removeInstruction_spec hcons hsorted).2 _ hc') (bind_eq_ok.mpr ⟨_, hc', rfl⟩)
  | advance =>
    obtain ⟨w, hw⟩ := Option.ne_none_iff_exists'.mp ha
    have hwalk : WalkInv s.F s.caches.pointers w := by
      simpa only [StateInv, State.pointers, hw] using hinv
    simp only [State.step, hw] at hs
    obtain ⟨⟨c, r⟩, hr, hs⟩ := bind_eq_ok.mp hs
    have hr' : w.advance s.F s.caches.pointers = .ok (c.pointers, r) := by
      rw [advance_pointers, hr]
      rfl
    refine hcareful (fun w' hw' => ?_) ?_
    · obtain rfl : w = w' := Option.some.inj (hw.symm.trans hw')
      exact Walk.Asserted.careful hwalk (hasserted rfl w hw) hr'
    · simp only [State.step, State.pointers, hw]
      refine bind_eq_ok.mpr ⟨_, hr', ?_⟩
      cases r with
      | inl w' =>
        cases hs
        rfl
      | inr result =>
        cases hs
        rfl

end Pointers

/-! ## Runs -/

section Runs

variable {S : FiniteSetting} {F F' : Function S.AA} {c c' : Caches}

theorem EntriesFaithful.congr (h : EntriesFaithful F c)
    (hc : c'.nonLocalPointerDeps = c.nonLocalPointerDeps) : EntriesFaithful F c' :=
  h.fewer fun P => .inr (fewer_of_eq (by rw [hc]))

/-- Records that are what they were, or are not said to be complete. -/
theorem AllComplete.records (h : AllComplete S.toSetting c)
    (hc : ∀ P, (c'.info P).pair = none ∨ c'.info P = c.info P) : AllComplete S.toSetting c' := by
  intro P b0 s0 hpair
  rcases hc P with hnone | hsame
  · rw [hnone] at hpair
    cases hpair
  · have hentries : c'.entries P = c.entries P := by rw [Caches.entries, hsame, Caches.entries]
    have hblocks : c'.blocks P = c.blocks P := by rw [Caches.blocks, hentries, Caches.blocks]
    rw [hsame] at hpair
    obtain ⟨hsome, hclean, hstart, hclosed⟩ := h P b0 s0 hpair
    refine ⟨hsome, hentries ▸ hclean, ?_, ?_⟩
    · simpa only [Caches.Continues, hblocks] using hstart
    · simpa only [Caches.Continues, hentries, hblocks] using hclosed

/-- The state as far as pointers go. -/
structure PointerInv (s : State S.toSetting) : Prop where
  state : StateInv s.pointers
  idle : s.walk = none → EntriesFaithful s.F s.caches ∧ AllComplete S.toSetting s.caches
  walk : ∀ w, s.walk = some w → WalkFits s.F s.caches w ∧ WalkPairs s.caches w ∧ WalkCovers s.F w

theorem pointerInv_of_idle {s : State S.toSetting} (hstate : StateInv s.pointers)
    (hw : s.walk = none) (hfaithful : EntriesFaithful s.F s.caches)
    (hcomplete : AllComplete S.toSetting s.caches) : PointerInv s :=
  ⟨hstate, fun _ => ⟨hfaithful, hcomplete⟩, fun w hx => by rw [hw] at hx; cases hx⟩

theorem pointerInv_of_walk {s : State S.toSetting} (hstate : StateInv s.pointers)
    {w : Walk S.toSetting} (hw : s.walk = some w)
    (h : WalkFits s.F s.caches w ∧ WalkPairs s.caches w ∧ WalkCovers s.F w) : PointerInv s := by
  refine ⟨hstate, fun hx => ?_, fun w' hw' => ?_⟩
  · rw [hw] at hx
    cases hx
  · obtain rfl : w = w' := Option.some.inj (hw.symm.trans hw')
    exact h

theorem pointerInv_initial (F : Function S.AA) : PointerInv (.initial F : State S.toSetting) := by
  refine pointerInv_of_idle (stateInv_initial F) rfl entriesFaithful_empty fun P b0 s0 hpair => ?_
  simp [State.initial, Caches.info] at hpair

/-- The walk at the beginning of a query. -/
theorem PointerInv.begin {s : State S.toSetting} (h : PointerInv s) (hw : s.walk = none)
    {Loc : Location} (hptr : Loc.ptr.isSome) {isLoad : Bool} {FromBB : BlockId}
    {w : Walk S.toSetting}
    (hstart : w = { loc := Loc, isLoad, fromBB := FromBB, visited := fun _ => none, result := []
                    control := .enter (S.phi.ofPtr Loc.ptr) Loc FromBB true, stack := [] }) :
    WalkFits s.F s.caches w ∧ WalkPairs s.caches w ∧ WalkCovers s.F w := by
  obtain ⟨hfaithful, hcomplete⟩ := h.idle hw
  subst hstart
  refine ⟨⟨hfaithful, ⟨.refl Loc, S.phi.getAddr_ofPtr Loc.ptr, hptr⟩, by simp⟩,
    ⟨fun P b0 s0 hpair => (hcomplete P b0 s0 hpair).pairOk, by simp, by simp, nofun, nofun,
      fun _ => ⟨rfl, fun _ => rfl⟩⟩,
    ⟨by simp, by simp, by simp, fun _ => ⟨rfl, S.phi.getAddr_ofPtr Loc.ptr⟩, nofun⟩⟩

/-- A part of a walk, or its last one. -/
theorem PointerInv.advance {s : State S.toSetting} (h : PointerInv s) {w : Walk S.toSetting}
    (hw : s.walk = some w) (hsound : w.Sound s.caches) {c : Caches} {r}
    (hr : w.advance s.F s.caches = .ok (c, r)) :
    match r with
    | .inl w' => SameQuery w w' ∧ WalkFits s.F c w' ∧ WalkPairs c w' ∧ WalkCovers s.F w'
    | .inr result => EntriesFaithful s.F c ∧ AllComplete S.toSetting c ∧
        Covers s.F w.loc w.isLoad w.fromBB w.visited result := by
  obtain ⟨hfits, hpairs, hcovers⟩ := h.walk w hw
  cases r with
  | inl w' =>
    have hp := advance_part hr
    exact ⟨hp.sameQuery, hfits.part hsound hp, hpairs.part hfits hsound hp,
      hcovers.part hfits hpairs hp⟩
  | inr result =>
    obtain ⟨rfl, hstack, failed, hret, rfl⟩ := advance_over hr
    exact ⟨hfits.faithful, hpairs.complete hret hstack, hcovers.over hret hstack⟩

/-- The condition of the part of a walk; the other steps have none. -/
def State.Sound {S : Setting} (s : State S) : Action S → Prop
  | .advance => ∀ w, s.walk = some w → w.Sound s.caches
  | _ => True

/-- A step other than a removal. -/
theorem PointerInv.step {s s' : State S.toSetting} (h : PointerInv s) {a : Action S.toSetting}
    (ha : s.Enabled a) (hne : ∀ R F', a ≠ .removeInstruction R F') (hsound : s.Sound a)
    (hs : s.step a = .ok s') : PointerInv s' := by
  have hstate : StateInv s'.pointers := stateInv_pointers h.state ha
    (by rintro rfl; exact fun w hw => (hsound w hw).asserted) hs
  cases a with
  | getDependency Q =>
    obtain ⟨⟨r, c⟩, hc, hs⟩ := bind_eq_ok.mp hs
    cases hs
    obtain ⟨hfaithful, hcomplete⟩ := h.idle ha.1
    have hsame : c.pointers = s.caches.pointers := getDependency_pointers hc
    have hinfo : c.pointers.nonLocalPointerDeps = s.caches.pointers.nonLocalPointerDeps := by
      rw [hsame]
    simp only [Caches.pointers] at hinfo
    refine pointerInv_of_idle hstate ha.1 (hfaithful.congr hinfo) (hcomplete.records fun P => .inr ?_)
    simp only [Caches.info, hinfo]
  | getNonLocalPointerDependency Loc isLoad FromBB =>
    cases hs
    obtain ⟨hwalk, p, hptr, _⟩ := ha
    exact pointerInv_of_walk hstate rfl (h.begin hwalk (by rw [hptr]; rfl) rfl)
  | invalidateCachedPointerInfo Ptr =>
    obtain ⟨c, hc, hs⟩ := bind_eq_ok.mp hs
    cases hs
    obtain ⟨hfaithful, hcomplete⟩ := h.idle ha
    have hrecords := invalidate_fewer hc
    refine pointerInv_of_idle hstate ha (hfaithful.fewer fun P => ?_) (hcomplete.records fun P => ?_)
    · exact (hrecords P).imp Caches.entries_of_none fewer_of_eq
    · refine (hrecords P).imp (fun hnone => ?_) fun hsame => ?_
      · simp [Caches.info, hnone]
      · simp only [Caches.info, hsame]
  | removeInstruction R F' => exact absurd rfl (hne R F')
  | advance =>
    obtain ⟨w, hw⟩ := Option.ne_none_iff_exists'.mp ha
    simp only [State.step, hw] at hs
    obtain ⟨⟨c, r⟩, hr, hs⟩ := bind_eq_ok.mp hs
    have hadvance := h.advance hw (hsound w hw) hr
    cases r with
    | inl w' =>
      cases hs
      exact pointerInv_of_walk hstate rfl hadvance.2
    | inr result =>
      cases hs
      exact pointerInv_of_idle hstate rfl hadvance.1 hadvance.2.1

theorem PointerInv.step_advance {s s' : State S.toSetting} (h : PointerInv s)
    (ha : s.Enabled .advance) (hsound : s.Sound .advance) (hs : s.step .advance = .ok s') :
    PointerInv s' :=
  h.step ha nofun hsound hs

/-- A removal leaves the function without the instruction. -/
theorem PointerInv.remove {s : State S.toSetting} (h : PointerInv s) {R : InstId}
    (ha : s.Enabled (.removeInstruction R F')) (hF : s.F.Removes F' R) {c : Caches}
    (hr : removeInstruction s.F s.caches R = .ok c) :
    PointerInv { s with F := F', caches := c } := by
  obtain ⟨hfaithful, hcomplete⟩ := h.idle ha.1
  have hc := removeInstruction_pointers hr
  have hcons := (h.state.idle ha.1).1
  have hfaithful' : EntriesFaithful F' c.pointers :=
    removeInstruction_faithful (c := s.caches.pointers) hfaithful hcons hF hc
  have hrecords := removeInstruction_records hcons hc
  refine pointerInv_of_idle ?_ ha.1 hfaithful' (hcomplete.records hrecords)
  exact stateInv_pointers h.state ha (by rintro ⟨⟩) (bind_eq_ok.mpr ⟨c, hr, rfl⟩)

/-- As for `State`. -/
def ClientState.Sound (s : ClientState S) : ClientAction S → Prop
  | .base a => s.base.Sound a
  | _ => True

def ClientState.SoundStep (s s' : ClientState S) : Prop :=
  ∃ a, s.Enabled a ∧ s.Sound a ∧ s.step a = .ok s'

/-- The run lemma. -/
theorem pointerInv_of_run {s : ClientState S}
    (h : ReflTransGen ClientState.SoundStep (.initial F) s) : PointerInv s.base := by
  induction h with
  | refl => exact pointerInv_initial F
  | tail _ hstep ih =>
    obtain ⟨a, ha, hsound, hs⟩ := hstep
    cases a with
    | base a =>
      obtain ⟨b, hb, hs⟩ := bind_eq_ok.mp hs
      cases hs
      exact ih.step ha.1 ha.2 hsound hb
    | getNonLocalCallDependency Q =>
      obtain ⟨⟨es, c, calls⟩, hc, hs⟩ := bind_eq_ok.mp hs
      cases hs
      obtain ⟨⟨r, hr⟩, _⟩ := of_getNonLocalCallDependency_ok hc
      exact ih.step (a := .getDependency Q) ha (by rintro _ _ ⟨⟩) trivial
        (bind_eq_ok.mpr ⟨_, hr, rfl⟩)
    | answerCall Q =>
      obtain ⟨⟨es, calls⟩, _, hs⟩ := bind_eq_ok.mp hs
      cases hs
      exact ih
    | removeInstruction R F' =>
      obtain ⟨⟨c, calls⟩, hc, hs⟩ := bind_eq_ok.mp hs
      cases hs
      obtain ⟨hwalk, hR, hF⟩ := ha
      exact ih.remove ⟨hwalk, hR, hF.keeps⟩ hF (of_removeFromAll_ok hc).1

/-! ## Queries -/

/-- The walk executes `n` parts, all of them sound. -/
inductive State.Walks {S : Setting} : Nat → State S → State S → Prop
  | refl (s : State S) : Walks 0 s s
  | head {n : Nat} {s s' s'' : State S} (ha : s.Enabled .advance) (hsound : s.Sound .advance)
      (hs : s.step .advance = .ok s') (h : Walks n s' s'') : Walks (n + 1) s s''

/-- Where a query stands: it is on, or it has been answered. -/
def State.Queried {S : Setting} (F : Function S.AA) (Loc : Location) (isLoad : Bool)
    (FromBB : BlockId) (s : State S) : Prop :=
  s.F = F ∧ match s.walk with
    | some w => w.loc = Loc ∧ w.isLoad = isLoad ∧ w.fromBB = FromBB
    | none => Answered F Loc isLoad FromBB s.result

section Query

variable {s s' : State S.toSetting} {w : Walk S.toSetting} {Loc : Location} {isLoad : Bool}
  {FromBB : BlockId} {n : Nat}

/-- A sound part of a walk. -/
theorem PointerInv.queried_step (h : PointerInv s) (hq : s.Queried F Loc isLoad FromBB)
    (ha : s.Enabled .advance) (hsound : s.Sound .advance) (hs : s.step .advance = .ok s') :
    s'.Queried F Loc isLoad FromBB := by
  obtain ⟨hF, hwalk⟩ := hq
  obtain ⟨w, hw⟩ := Option.ne_none_iff_exists'.mp ha
  simp only [hw] at hwalk
  obtain ⟨hloc, hload, hfrom⟩ := hwalk
  simp only [State.step, hw] at hs
  obtain ⟨⟨c, r⟩, hr, hs⟩ := bind_eq_ok.mp hs
  have hadvance := h.advance hw (hsound w hw) hr
  cases r with
  | inl w' =>
    cases hs
    have hsame := hadvance.1
    exact ⟨hF, hsame.loc.trans hloc, hsame.isLoad.trans hload, hsame.fromBB.trans hfrom⟩
  | inr result =>
    cases hs
    subst hloc hload hfrom hF
    exact ⟨rfl, hadvance.2.2.answered⟩

theorem State.Walks.queried (h : State.Walks n s s') (hinv : PointerInv s)
    (hq : s.Queried F Loc isLoad FromBB) : s'.Queried F Loc isLoad FromBB := by
  induction h with
  | refl => exact hq
  | head ha hsound hs _ ih =>
    exact ih (hinv.step_advance ha hsound hs) (hinv.queried_step hq ha hsound hs)

theorem State.enabled_advance {S : Setting} {s : State S} {w : Walk S} (hw : s.walk = some w) :
    s.Enabled .advance := by
  simp [State.Enabled, hw]

/-- A part that is careful goes through, whatever the local results are. -/
theorem PointerInv.progress (h : PointerInv s) (hw : s.walk = some w) (hcareful : w.Careful s.caches) :
    ∃ r, w.advance s.F s.caches = .ok r := by
  have hwalk : WalkInv s.F s.caches.pointers w := by
    simpa only [StateInv, State.pointers, hw] using h.state
  obtain ⟨r, hr, _⟩ := (advance_spec hwalk).1 hcareful
  rw [advance_pointers] at hr
  cases hadvance : w.advance s.F s.caches with
  | error e =>
    rw [hadvance] at hr
    cases hr
  | ok r => exact ⟨r, rfl⟩

theorem Control.left_pos (c : Caches) (control : Control S.toSetting) :
    0 < control.left c isLoad := by
  cases control <;> simp only [Control.left, leftInPreds] <;> omega

/-- The walk goes on until it is over, or comes to a part that is not sound or not careful. -/
theorem PointerInv.walks {k : Nat} (h : PointerInv s) (hw : s.walk = some w)
    (hk : w.left s.caches ≤ k) : ∃ n s', n ≤ k ∧ State.Walks n s s' ∧
      (s'.walk = none ∨ ¬ (s'.Sound .advance ∧ s'.Careful .advance)) := by
  induction k generalizing s w with
  | zero =>
    have hpos : 0 < w.control.left s.caches w.isLoad := w.control.left_pos s.caches
    unfold Walk.left at hk
    omega
  | succ k ih =>
    by_cases hx : s.Sound .advance ∧ s.Careful .advance
    · obtain ⟨hsound, hcareful⟩ := hx
      have ha := State.enabled_advance hw
      obtain ⟨⟨c, r⟩, hr⟩ := h.progress hw (hcareful w hw)
      cases r with
      | inl w' =>
        have hstep : s.step .advance = .ok { s with caches := c, walk := some w' } := by
          simp only [State.step, hw, hr]
          rfl
        have hinv := h.step_advance ha hsound hstep
        have hlt := (advance_part hr).left_lt
        obtain ⟨n, s', hn, hwalks, hend⟩ := ih hinv rfl (show w'.left c ≤ k by omega)
        exact ⟨n + 1, s', by omega, .head ha hsound hstep hwalks, hend⟩
      | inr result =>
        have hstep : s.step .advance =
            .ok { s with caches := c, walk := none, result := result } := by
          simp only [State.step, hw, hr]
          rfl
        exact ⟨1, _, by omega, .head ha hsound hstep (.refl _), .inl rfl⟩
    · exact ⟨0, s, by omega, .refl s, .inr hx⟩

theorem left_begin_le (c : Caches) {pointer : S.phi.Addr} {result : List NonLocalDepResult} :
    Walk.left (S := S) c { loc := Loc, isLoad, fromBB := FromBB, visited := fun _ => none, result
                           control := .enter pointer Loc FromBB true, stack := [] } ≤
      11 * S.blocks.card + 10 := by
  have hcard : (unvisited S fun _ => none).card ≤ S.blocks.card :=
    Finset.card_le_card (Finset.filter_subset _ _)
  have hrestarts := restarts_le c (S.phi.getAddr pointer, isLoad) Loc
  simp only [Walk.left, Control.left, List.map_nil, List.sum_nil]
  omega

end Query

end Runs

/-! ## A loop -/

namespace LoopedBlocks

/-- The global 2 stands for a phi of block 1: the global 0 on the way in, itself around the loop. -/
def phi : PHITransAddr :=
  { TwoBlocks.S.phi with
    needsPHITranslationFromBlock
      | some (.global 2), 1 => true
      | _, _ => false
    pHITranslateValue
      | some (.global 2), _, 0 => some (.global 0)
      | v, _, _ => v }

/-- The second block of `TwoBlocks` is its own predecessor. -/
def S : FiniteSetting where
  AA := TwoBlocks.AA
  DT := some fun b => b ≤ 1
  getPreds b := if b = 1 then [0, 1] else []
  phi := phi
  blocks := {0, 1}
  preds_mem b p hp := by
    split at hp
    · simpa using hp
    · cases hp

def F : Function S.AA := TwoBlocks.F

def start : ClientState S := .initial F

/-- A query for a load of a global, from the end of block 1. -/
def Loc (g : GlobalId) : Location := { ptr := some (.global g), size := 4 }

/-- The part throws no data out and overwrites no entry. -/
def calm (w : Walk S.toSetting) (c : Caches) : Bool :=
  match w.control with
  | .enter pointer loc _ _ => !decide ((c.info (S.phi.getAddr pointer, w.isLoad)).ClearedBy loc)
  | .failed .. => false
  | _ => true

/-- Execute `n` calm parts of the walk that is on. -/
def walkOn : Nat → State S.toSetting → Except Fault (State S.toSetting)
  | 0, s => .ok s
  | n + 1, s =>
    match s.walk with
    | none => .error .noCurrentBlock
    | some w =>
      if calm w s.caches then s.step .advance >>= walkOn n else .error .noCurrentBlock

theorem sound_of_calm {w : Walk S.toSetting} {c : Caches} (h : calm w c = true) : w.Sound c := by
  unfold Walk.Sound
  split
  next hw =>
    simp only [calm, hw, Bool.not_eq_true', decide_eq_false_iff_not] at h
    exact fun hx => absurd hx h
  next hw => simp [calm, hw] at h
  next => trivial

theorem walks_walkOn {n : Nat} {s s' : State S.toSetting} (h : walkOn n s = .ok s') :
    State.Walks n s s' := by
  induction n generalizing s with
  | zero =>
    cases h
    exact .refl _
  | succ n ih =>
    unfold walkOn at h
    split at h
    next => cases h
    next w hw =>
      split at h
      next hcalm =>
        obtain ⟨t, ht, h⟩ := bind_eq_ok.mp h
        refine .head (State.enabled_advance hw) (fun w' hw' => ?_) ht (ih h)
        rw [hw] at hw'
        cases hw'
        exact sound_of_calm hcalm
      next => cases h

/-- The first query for the phi, up to its end. -/
def queried : Except Fault (State S.toSetting) :=
  start.base.step (.getNonLocalPointerDependency (Loc 2) true 1) >>= walkOn 21

/-- The walk of a query as steps of a client. -/
theorem run_of_walks {n : Nat} {s s' : State S.toSetting} (h : State.Walks n s s')
    {calls : CallCaches} (hs : ReflTransGen ClientState.SoundStep start ⟨s, calls⟩) :
    ReflTransGen ClientState.SoundStep start ⟨s', calls⟩ := by
  induction h with
  | refl => exact hs
  | head ha hsound hstep _ ih =>
    exact ih (hs.tail ⟨.base .advance, ⟨ha, nofun⟩, hsound, bind_eq_ok.mpr ⟨_, hstep, rfl⟩⟩)

theorem enabled {s : State S.toSetting} {g : GlobalId} (h : s.walk = none) :
    s.Enabled (.getNonLocalPointerDependency (Loc g) true 1) := ⟨h, .global g, rfl, rfl⟩

theorem run_queried {s : State S.toSetting} (h : queried = .ok s) :
    ReflTransGen ClientState.SoundStep start ⟨s, {}⟩ := by
  obtain ⟨t, ht, hs⟩ := bind_eq_ok.mp h
  exact run_of_walks (walks_walkOn hs) (.single ⟨.base (.getNonLocalPointerDependency (Loc 2) true 1),
    ⟨enabled rfl, nofun⟩, trivial, bind_eq_ok.mpr ⟨t, ht, rfl⟩⟩)

end LoopedBlocks

section Results

variable {S : FiniteSetting} {F : Function S.AA} {s : ClientState S} {s0 s1 : State S.toSetting}
  {Loc : Location} {isLoad : Bool} {FromBB : BlockId} {n : Nat}

/-- In every state a query for a pointer that ends has an answer that misses nothing. -/
theorem pointer_queries_answered (h : ReflTransGen ClientState.SoundStep (.initial F) s)
    (hq : s.base.Enabled (.getNonLocalPointerDependency Loc isLoad FromBB))
    (hstart : s.base.step (.getNonLocalPointerDependency Loc isLoad FromBB) = .ok s0)
    (hwalks : State.Walks n s0 s1) (hend : s1.walk = none) :
    Answered s.base.F Loc isLoad FromBB s1.result := by
  have hinv := (pointerInv_of_run h).step hq nofun trivial hstart
  cases hstart
  have hqueried := (hwalks.queried hinv ⟨rfl, rfl, rfl, rfl⟩).2
  rwa [hend] at hqueried

/-- The same query again: the phi is translated around the loop and into block 0, where the cached
entry of the global 0 answers. -/
theorem pointer_queries_answered_again : ∃ s, LoopedBlocks.queried = .ok s ∧
    ∃ s0, s.step (.getNonLocalPointerDependency (LoopedBlocks.Loc 2) true 1) = .ok s0 ∧
      ∃ s1, LoopedBlocks.walkOn 19 s0 = .ok s1 ∧
        s1.result = [⟨0, .defn 1, some (.global 0)⟩] ∧
        Answered LoopedBlocks.F (LoopedBlocks.Loc 2) true 1 s1.result := by
  refine ⟨_, rfl, _, rfl, _, rfl, rfl, ?_⟩
  exact pointer_queries_answered (n := 19) (LoopedBlocks.run_queried rfl) (LoopedBlocks.enabled rfl)
    rfl (LoopedBlocks.walks_walkOn rfl) rfl

/-- In every state a query for a pointer goes through, in a bounded number of parts, until it ends,
or comes to cached data that is in use or holds a constant and would have to be thrown out. -/
theorem pointer_queries_end (h : ReflTransGen ClientState.SoundStep (.initial F) s)
    (hq : s.base.Enabled (.getNonLocalPointerDependency Loc isLoad FromBB))
    (hstart : s.base.step (.getNonLocalPointerDependency Loc isLoad FromBB) = .ok s0) :
    ∃ n s1, n ≤ 11 * S.blocks.card + 10 ∧ State.Walks n s0 s1 ∧
      (s1.walk = none ∨ ¬ (s1.Sound .advance ∧ s1.Careful .advance)) := by
  have hinv := (pointerInv_of_run h).step hq nofun trivial hstart
  cases hstart
  exact hinv.walks rfl (left_begin_le s.base.caches)

theorem pointer_queries_end_again : ∃ s, LoopedBlocks.queried = .ok s ∧
    ∃ s0, s.step (.getNonLocalPointerDependency (LoopedBlocks.Loc 2) true 1) = .ok s0 ∧
      ∃ n s1, n ≤ 32 ∧ State.Walks n s0 s1 ∧
        (s1.walk = none ∨ ¬ (s1.Sound .advance ∧ s1.Careful .advance)) :=
  ⟨_, rfl, _, rfl, pointer_queries_end (LoopedBlocks.run_queried rfl) (LoopedBlocks.enabled rfl) rfl⟩

end Results

end FlowDep
end DepTaint
