import DepTaint.WalkParts

/-!
# WalkRecords

The records of pointers under a walk that uses them.

An activation adds to the entries of its pointer for the location it was called for. A part is
`Sound` if it keeps to what the analysis relies on: where an entry is overwritten the block is
transparent, as the assertion there says, and no data is thrown out that an activation still uses.

* `Retains`: what a walk does to a record, apart from throwing it out.
* `WalkFits.part`: the entries stay faithful, and every record agrees with its activations.
-/

namespace DepTaint
namespace FlowDep

section Walk

variable {S : Setting} {F : Function S.AA} {c c' : Caches} {w w' : Walk S} {f : Frame S}
  {P : ValueIsLoadPair} {Loc : Location} {isLoad : Bool} {es : List NonLocalDepEntry}
  {pair : Option (BlockId × Bool)}

/-! ## The blocks that wait -/

/-- `b` is in the worklist, to be scanned for the address `a`. -/
def Frame.Waits (f : Frame S) (b : BlockId) (a : Option Value) : Prop :=
  b ∈ f.worklist ∧ a = S.phi.getAddr f.pointer

/-- `b` is a predecessor still to be looked at, or in the worklist. -/
def PredsWait (f : Frame S) (predList : List (BlockId × S.phi.Addr)) (b : BlockId)
    (a : Option Value) : Prop :=
  (∃ A, (b, A) ∈ predList ∧ a = S.phi.getAddr A) ∨ f.Waits b a

/-- The first block of a query is not looked at, and does not wait. -/
def Control.Waits : Control S → BlockId → Option Value → Prop
  | .enter pointer _ startBB skip, b, a | .lookup pointer _ startBB skip, b, a =>
    skip = false ∧ b = startBB ∧ a = S.phi.getAddr pointer
  | .iterate f, b, a => f.skipFirstBlock = false ∧ f.Waits b a
  | .transparent f BB, b, a | .failed f BB, b, a =>
    f.skipFirstBlock = false ∧ (b = BB ∧ a = S.phi.getAddr f.pointer ∨ f.Waits b a)
  | .preds f predList, b, a => PredsWait f predList b a
  | .ret _, _, _ => False

/-- The predecessor whose call has failed is still to be reported. -/
def Walk.FailedPred (w : Walk S) (b : BlockId) (a : Option Value) : Prop :=
  w.control = .ret true ∧ ∃ s ∈ w.stack.head?, b = s.pred ∧ a = s.predPtrVal

/-- `b` is marked with `a`, and the walk has still to look at it. -/
def Walk.Waits (w : Walk S) (b : BlockId) (a : Option Value) : Prop :=
  w.control.Waits b a ∨ w.FailedPred b a ∨ ∃ s ∈ w.stack, PredsWait s.frame s.predList b a

/-! ## Sound parts -/

/-- The walk has added nothing to the entries of `P`, and is not about to. -/
structure Walk.Unused (w : Walk S) (P : ValueIsLoadPair) : Prop where
  visited : ∀ b, w.visited b = some P.1 → w.Waits b P.1
  stack : ∀ s ∈ w.stack, s.frame.key w.isLoad = P → s.frame.worklist = []

/-- The condition of a part: data that is thrown out is not in use, and an entry that is overwritten
is for a transparent block. -/
def Walk.Sound (w : Walk S) (c : Caches) : Prop :=
  match w.control with
  | .enter pointer loc _ _ =>
    (c.info (S.phi.getAddr pointer, w.isLoad)).ClearedBy loc →
      w.Unused (S.phi.getAddr pointer, w.isLoad)
  | .failed f BB =>
    f.skipFirstBlock = false →
      ∀ e ∈ c.entries (f.key w.isLoad), e.BB = BB → e.result.isNonLocal = true
  | _ => True

/-! ## Entries sorted and overwritten -/

theorem insertBack_perm {range : List NonLocalDepEntry → List NonLocalDepEntry}
    (hrange : ∀ l, (range l).length ≤ l.length) (es : List NonLocalDepEntry) :
    (insertBack range es).Perm es := by
  unfold insertBack
  split
  next => exact .refl _
  next e hlast =>
    have hes : es.dropLast ++ [e] = es := List.dropLast_append_getLast? e hlast
    have hle : upperBound (range es.dropLast) e.BB ≤ es.dropLast.length :=
      Nat.le_trans (List.takeWhile_prefix _).length_le (hrange _)
    calc
      (es.dropLast.insertIdx (upperBound (range es.dropLast) e.BB) e).Perm (e :: es.dropLast) :=
        List.perm_insertIdx e _ hle
      List.Perm _ (es.dropLast ++ [e]) := (List.perm_append_singleton e _).symm
      _ = es := hes

theorem sort_perm (es : List NonLocalDepEntry) (n : Nat) :
    (sortNonLocalDepInfoCache es n).Perm es := by
  have hid : ∀ l : List NonLocalDepEntry, (id l).length ≤ l.length := fun l => Nat.le_refl _
  have hdrop : ∀ l : List NonLocalDepEntry, l.dropLast.length ≤ l.length := fun l => by simp
  unfold sortNonLocalDepInfoCache
  split
  · exact .refl _
  · exact insertBack_perm hid es
  · exact (insertBack_perm hid _).trans (insertBack_perm hdrop es)
  · exact List.perm_insertionSort _ es

/-- The entry of the block is found, and its result is set. -/
theorem of_setLastResult {BB : BlockId} {r : FlowDepResult} {es' : List NonLocalDepEntry}
    (h : setLastResult BB r es = some es') :
    ∃ pre e post, es = pre ++ e :: post ∧ e.BB = BB ∧ es' = pre ++ ⟨BB, r⟩ :: post := by
  by_cases hBB : BB ∈ es.map NonLocalDepEntry.BB
  · obtain ⟨pre, e, post, hes, he, hset⟩ := setLastResult_spec r hBB
    rw [hset] at h
    exact ⟨pre, e, post, hes, he, (Option.some.inj h).symm⟩
  · exfalso
    induction es generalizing es' with
    | nil => cases h
    | cons x es ih =>
      rw [List.map_cons, List.mem_cons, not_or] at hBB
      unfold setLastResult at h
      split at h
      next hset => exact ih hset hBB.2
      next => simp [Ne.symm hBB.1] at h

/-! ## Records that stay -/

/-- Every record of `c` is in `c'`, for the same location and with an entry for the same blocks. -/
structure Retains (c c' : Caches) : Prop where
  recorded : ∀ P Loc, RecordedFor c P Loc → RecordedFor c' P Loc
  blocks : ∀ P, ∀ b ∈ c.blocks P, b ∈ c'.blocks P

theorem Retains.refl (c : Caches) : Retains c c := ⟨fun _ _ h => h, fun _ _ h => h⟩

theorem Retains.trans {c1 c2 : Caches} (h1 : Retains c c1) (h2 : Retains c1 c2) : Retains c c2 :=
  ⟨fun P Loc h => h2.recorded P Loc (h1.recorded P Loc h),
    fun P b h => h2.blocks P b (h1.blocks P b h)⟩

/-- A record with other data for the same location. -/
theorem retains_setInfo {info : NonLocalPointerInfo} (hsize : info.size = (c.info P).size)
    (htag : info.tbaaTag = (c.info P).tbaaTag)
    (hblocks : ∀ b ∈ c.blocks P, b ∈ info.nonLocalDeps.map NonLocalDepEntry.BB) :
    Retains c (c.setInfo P info) where
  recorded P' Loc h := by
    by_cases hP : P' = P
    · subst hP
      exact recordedFor_setInfo hsize htag h
    · exact h.congr (Function.update_of_ne hP ..)
  blocks P' b hb := by
    by_cases hP : P' = P
    · subst hP
      rw [Caches.blocks, Caches.entries_setInfo]
      exact hblocks b hb
    · rwa [Caches.blocks, Caches.entries_setInfo_of_ne hP]

theorem retains_setPair : Retains c (c.setPair P pair) :=
  retains_setInfo rfl rfl fun _ hb => hb

theorem retains_setEntries (h : ∀ b ∈ c.blocks P, b ∈ es.map NonLocalDepEntry.BB) :
    Retains c (c.setEntries P es) :=
  retains_setInfo rfl rfl h

theorem retains_sort : Retains c (f.sort c isLoad) :=
  retains_setEntries fun _ hb => ((sort_perm _ _).map _).mem_iff.mpr hb

/-- An entry of `P` with its result set, and the query no longer complete. -/
theorem retains_overwrite {BB : BlockId} {r : FlowDepResult}
    (h : setLastResult BB r (c.entries P) = some es) :
    Retains c ((c.setPair P none).setEntries P es) := by
  obtain ⟨pre, e, post, hes, rfl, rfl⟩ := of_setLastResult h
  refine retains_setPair.trans (retains_setEntries fun b hb => ?_)
  rw [blocks_setPair, Caches.blocks, hes] at hb
  simpa using hb

theorem ScansBlock.retains {AA : AliasAnalysis} {F : Function AA} {BB : BlockId}
    {Dep : FlowDepResult} (h : ScansBlock F P Loc isLoad BB c c' Dep) : Retains c c' where
  recorded P' Loc' hr := by
    by_cases hP : P' = P
    · subst hP
      exact h.recorded Loc' hr
    · exact hr.congr (h.frame P' hP)
  blocks P' b hb := by
    by_cases hP : P' = P
    · subst hP
      exact h.blocks b hb
    · simpa only [Caches.blocks, Caches.entries, Caches.info, h.frame P' hP] using hb

/-! ## Faithful entries -/

/-- Entries of `P` that were there, or are faithful. -/
theorem setInfo_faithful {info : NonLocalPointerInfo} (h : EntriesFaithful F c)
    (hsize : info.size = (c.info P).size) (htag : info.tbaaTag = (c.info P).tbaaTag)
    (hes : ∀ e ∈ info.nonLocalDeps, e ∈ c.entries P ∨ e.result = .other .unknown) :
    EntriesFaithful F (c.setInfo P info) := by
  intro P' e he
  by_cases hP : P' = P
  · subst hP
    rw [Caches.entries_setInfo] at he
    have hloc : ((c.setInfo P' info).info P').location P' = (c.info P').location P' := by
      rw [Caches.info_setInfo]
      simp only [NonLocalPointerInfo.location, hsize, htag]
    rw [hloc]
    rcases hes e he with hold | hunknown
    · exact h P' e hold
    · rw [hunknown]
      exact faithful_of_agrees rfl (.inr ⟨rfl, not_false⟩)
  · rw [Caches.entries_setInfo_of_ne hP] at he
    rw [Caches.info_setInfo_of_ne hP]
    exact h P' e he

theorem setPair_faithful (h : EntriesFaithful F c) : EntriesFaithful F (c.setPair P pair) :=
  setInfo_faithful h rfl rfl fun _ he => .inl he

theorem sort_faithful (h : EntriesFaithful F c) : EntriesFaithful F (f.sort c isLoad) :=
  setInfo_faithful h rfl rfl fun _ he => .inl ((sort_perm _ _).mem_iff.mp he)

theorem overwrite_faithful (h : EntriesFaithful F c) {BB : BlockId}
    (hset : setLastResult BB (.other .unknown) (c.entries P) = some es) :
    EntriesFaithful F ((c.setPair P none).setEntries P es) := by
  obtain ⟨pre, e, post, hes, rfl, rfl⟩ := of_setLastResult hset
  refine setInfo_faithful (setPair_faithful h) rfl rfl fun x hx => ?_
  rw [Caches.entries_setPair, hes]
  rcases List.mem_append.mp hx with hx | hx
  · exact .inl (List.mem_append_left _ hx)
  · rcases List.mem_cons.mp hx with rfl | hx
    · exact .inr rfl
    · exact .inl (List.mem_append_right _ (List.mem_cons_of_mem _ hx))

/-! ## Activations and their records -/

/-- A call for a location that the location `Loc` of the query has become. -/
structure CallFits (Loc : Location) (pointer : S.phi.Addr) (loc : Location) : Prop where
  wider : Loc.Wider loc
  ptr : S.phi.getAddr pointer = loc.ptr
  isSome : loc.ptr.isSome

/-- An activation; while blocks wait, its record is for its location. -/
structure Fits (Loc : Location) (c : Caches) (isLoad : Bool) (f : Frame S) : Prop where
  call : CallFits Loc f.pointer f.loc
  recorded : f.worklist ≠ [] → RecordedFor c (f.key isLoad) f.loc

def ControlFits (Loc : Location) (c : Caches) (isLoad : Bool) : Control S → Prop
  | .enter pointer loc _ _ => CallFits Loc pointer loc
  | .lookup pointer loc _ _ =>
    CallFits Loc pointer loc ∧ RecordedFor c (S.phi.getAddr pointer, isLoad) loc
  | .iterate f | .failed f _ | .preds f _ => Fits Loc c isLoad f
  | .transparent f _ => Fits Loc c isLoad f ∧ RecordedFor c (f.key isLoad) f.loc
  | .ret _ => True

structure WalkFits (F : Function S.AA) (c : Caches) (w : Walk S) : Prop where
  faithful : EntriesFaithful F c
  control : ControlFits w.loc c w.isLoad w.control
  stack : ∀ s ∈ w.stack, Fits w.loc c w.isLoad s.frame

theorem Fits.key (h : Fits Loc c isLoad f) : f.key isLoad = (f.loc.ptr, isLoad) := by
  rw [Frame.key, h.call.ptr]

theorem Fits.retains (h : Fits Loc c isLoad f) (hc : Retains c c') : Fits Loc c' isLoad f :=
  ⟨h.call, fun hwork => hc.recorded _ _ (h.recorded hwork)⟩

theorem WalkFits.stack_retains (h : WalkFits F c w) (hc : Retains c c') :
    ∀ s ∈ w.stack, Fits w.loc c' w.isLoad s.frame := fun s hs => (h.stack s hs).retains hc

/-- A record that is thrown out or new is none that an activation with blocks left uses. -/
theorem Reconciles.recorded {restart : Option Location} {loc : Location}
    (h : Reconciles P loc c c' restart) (hunused : (c.info P).ClearedBy loc → w.Unused P)
    {s : Suspended S} (hs : s ∈ w.stack) {loc' : Location} (hwork : s.frame.worklist ≠ [])
    (hr : RecordedFor c (s.frame.key w.isLoad) loc') :
    RecordedFor c' (s.frame.key w.isLoad) loc' := by
  by_cases hP : s.frame.key w.isLoad = P
  · rcases h.record with hsame | ⟨_, _, hnone | hclear⟩
    · exact hr.congr (hP ▸ hsame)
    · obtain ⟨info, hinfo, _⟩ := hr
      rw [hP, hnone] at hinfo
      cases hinfo
    · exact absurd ((hunused hclear).stack s hs hP) hwork
  · exact hr.congr (h.frame _ hP)

/-- The lookup for the next block of the worklist. -/
theorem Fits.scansBlock (h : Fits Loc c isLoad f) (hc : EntriesFaithful F c) {BB : BlockId}
    {worklist : List BlockId} (hwork : f.worklist = BB :: worklist) {Dep : FlowDepResult} {n : Nat}
    (hlook : getNonLocalInfoForBlock F c (f.key isLoad) f.loc isLoad BB n = .ok (Dep, c')) :
    ScansBlock F (f.key isLoad) f.loc isLoad BB c c' Dep :=
  getNonLocalInfoForBlock_scans hc h.key (h.recorded (by simp [hwork])) hlook

/-- Only a part that reconciles a record with a call throws one out. -/
theorem Part.retains (hp : Part F c w c' w') (h : WalkFits F c w) :
    (∃ pointer loc startBB skip restart, w.control = .enter pointer loc startBB skip ∧
      Reconciles (S.phi.getAddr pointer, w.isLoad) loc c c' restart) ∨ Retains c c' := by
  have hcontrol := h.control
  cases hp with
  | restart hw hr => exact .inl ⟨_, _, _, _, _, hw, reconcile_reconciles hr⟩
  | agree hw hr => exact .inl ⟨_, _, _, _, _, hw, reconcile_reconciles hr⟩
  | start hw => exact .inr retains_setPair
  | finish hw hwork => exact .inr retains_sort
  | report hw hwork hskip hlook hclosed hr =>
    simp only [hw, ControlFits] at hcontrol
    exact .inr (hcontrol.scansBlock h.faithful hwork hlook).retains
  | pass hw hwork hskip hlook hopen =>
    simp only [hw, ControlFits] at hcontrol
    exact .inr (hcontrol.scansBlock h.faithful hwork hlook).retains
  | translate hw hneeds hvisit => exact .inr retains_sort
  | stick hw hpointer hloc hwork hskip hc hstuck =>
    rcases hc with rfl | rfl
    · exact .inr (.refl _)
    · exact .inr retains_sort
  | giveUp hw hskip => exact .inr retains_setPair
  | overwrite hw hskip hset => exact .inr (retains_overwrite hset)
  | resume hw => exact .inr retains_setPair
  | untranslated hw haddr => exact .inr retains_setPair
  | retFailed hw hstack => exact .inr retains_setPair
  | _ => exact .inr (.refl _)

/-- A part of a walk keeps the entries faithful, and a sound one the records that are in use. -/
theorem WalkFits.part (h : WalkFits F c w) (hsound : w.Sound c) (hp : Part F c w c' w') :
    WalkFits F c' w' := by
  have hcontrol := h.control
  cases hp with
  | restart hw hr =>
    simp only [hw, ControlFits] at hcontrol
    simp only [Walk.Sound, hw] at hsound
    have hrec := reconcile_reconciles hr
    obtain ⟨hptr, hwider, _⟩ := hrec.again _ rfl
    refine ⟨h.faithful.fewer hrec.fewer, ⟨hcontrol.wider.trans hwider, hcontrol.ptr.trans hptr.symm,
      hptr ▸ hcontrol.isSome⟩, fun s hs => ⟨(h.stack s hs).call, fun hwork => ?_⟩⟩
    exact hrec.recorded hsound hs hwork ((h.stack s hs).recorded hwork)
  | agree hw hr =>
    simp only [hw, ControlFits] at hcontrol
    simp only [Walk.Sound, hw] at hsound
    have hrec := reconcile_reconciles hr
    refine ⟨h.faithful.fewer hrec.fewer, ⟨hcontrol, hrec.agrees rfl⟩,
      fun s hs => ⟨(h.stack s hs).call, fun hwork => ?_⟩⟩
    exact hrec.recorded hsound hs hwork ((h.stack s hs).recorded hwork)
  | conflict hw hpair hother => exact ⟨h.faithful, trivial, h.stack⟩
  | cached hw hpair hsame => exact ⟨h.faithful, trivial, h.stack⟩
  | start hw =>
    simp only [hw, ControlFits] at hcontrol
    exact ⟨setPair_faithful h.faithful,
      ⟨hcontrol.1, fun _ => retains_setPair.recorded _ _ hcontrol.2⟩,
      h.stack_retains retains_setPair⟩
  | finish hw hwork => exact ⟨sort_faithful h.faithful, trivial, h.stack_retains retains_sort⟩
  | skip hw hwork hskip =>
    simp only [hw, ControlFits] at hcontrol
    have hrec := hcontrol.recorded (by simp [hwork])
    exact ⟨h.faithful, ⟨⟨hcontrol.call, fun _ => hrec⟩, hrec⟩, h.stack⟩
  | report hw hwork hskip hlook hclosed hr =>
    simp only [hw, ControlFits] at hcontrol
    have hs := hcontrol.scansBlock h.faithful hwork hlook
    have hrec := hcontrol.recorded (by simp [hwork])
    exact ⟨hs.faithful h.faithful hcontrol.key hrec,
      ⟨hcontrol.call, fun _ => hs.retains.recorded _ _ hrec⟩, h.stack_retains hs.retains⟩
  | pass hw hwork hskip hlook hopen =>
    simp only [hw, ControlFits] at hcontrol
    have hs := hcontrol.scansBlock h.faithful hwork hlook
    have hrec := hcontrol.recorded (by simp [hwork])
    have hrec' := hs.retains.recorded _ _ hrec
    exact ⟨hs.faithful h.faithful hcontrol.key hrec, ⟨⟨hcontrol.call, fun _ => hrec'⟩, hrec'⟩,
      h.stack_retains hs.retains⟩
  | spread hw hneeds hvisit =>
    simp only [hw, ControlFits] at hcontrol
    exact ⟨h.faithful, ⟨hcontrol.1.call, fun _ => hcontrol.2⟩, h.stack⟩
  | translate hw hneeds hvisit =>
    simp only [hw, ControlFits] at hcontrol
    exact ⟨sort_faithful h.faithful,
      ⟨hcontrol.1.call, fun _ => retains_sort.recorded _ _ hcontrol.2⟩,
      h.stack_retains retains_sort⟩
  | @stick f f' BB c' hw hpointer hloc hwork hskip hc hstuck =>
    simp only [hw, ControlFits] at hcontrol
    have hf : ∀ {c'}, RecordedFor c' (f.key w.isLoad) f.loc → Fits w.loc c' w.isLoad f' := by
      intro c' hr
      refine ⟨⟨hloc ▸ hcontrol.1.call.wider, ?_, hloc ▸ hcontrol.1.call.isSome⟩, fun _ => ?_⟩
      · rw [hpointer, hloc]
        exact hcontrol.1.call.ptr
      · rwa [Frame.key, hpointer, hloc]
    rcases hc with rfl | rfl
    · exact ⟨h.faithful, hf hcontrol.2, h.stack⟩
    · exact ⟨sort_faithful h.faithful, hf (retains_sort.recorded _ _ hcontrol.2),
        h.stack_retains retains_sort⟩
  | giveUp hw hskip =>
    exact ⟨setPair_faithful h.faithful, trivial, h.stack_retains retains_setPair⟩
  | overwrite hw hskip hset =>
    simp only [hw, ControlFits] at hcontrol
    have hretains := retains_overwrite hset
    exact ⟨overwrite_faithful h.faithful hset, hcontrol.retains hretains,
      h.stack_retains hretains⟩
  | @resume f hw =>
    simp only [hw, ControlFits] at hcontrol
    have hretains : Retains c (c.setPair (f.key w.isLoad) none) := retains_setPair
    have hf := hcontrol.retains hretains
    exact ⟨setPair_faithful h.faithful, ⟨hf.call, hf.recorded⟩, h.stack_retains retains_setPair⟩
  | untranslated hw haddr =>
    simp only [hw, ControlFits] at hcontrol
    exact ⟨setPair_faithful h.faithful, hcontrol.retains retains_setPair,
      h.stack_retains retains_setPair⟩
  | call hw haddr =>
    simp only [hw, ControlFits] at hcontrol
    refine ⟨h.faithful, ⟨⟨hcontrol.call.wider.size, hcontrol.call.wider.tbaaTag⟩, haddr, rfl⟩,
      fun s hs => ?_⟩
    rcases List.mem_cons.mp hs with rfl | hs
    · exact hcontrol
    · exact h.stack s hs
  | @retFailed s stack hw hstack =>
    have hretains : Retains c (c.setPair (s.frame.key w.isLoad) none) := retains_setPair
    have hstack' := h.stack_retains hretains
    refine ⟨setPair_faithful h.faithful, hstack' _ (by simp [hstack]), fun s hs => ?_⟩
    exact hstack' s (by simp [hstack, hs])
  | ret hw hstack =>
    exact ⟨h.faithful, h.stack _ (by simp [hstack]), fun s hs => h.stack s (by simp [hstack, hs])⟩

end Walk

end FlowDep
end DepTaint
