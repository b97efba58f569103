import DepTaint.WalkRecords

/-!
# WalkPairs

When the entries of a pointer answer a whole query.

A record says for which query its entries are complete: from which block, and whether that block was
skipped. It says so from the moment the first activation for the pointer starts, and takes it back
when the query turns out to need the entries of another pointer. `PairOk` is what is true of it in
between, and `PairComplete` when no walk is on.

* `WalkPairs.moves_part`: which blocks wait after a part, and which it is done with.
* `WalkPairs.part`: the parts of a walk keep this.
* `WalkPairs.complete`: at the end of a walk every record that says so is complete.
-/

namespace DepTaint
namespace FlowDep

section Walk

variable {S : Setting} {F : Function S.AA} {c c' : Caches} {w w' : Walk S} {f : Frame S}
  {P key : ValueIsLoadPair} {b0 : BlockId} {s0 : Bool}

/-! ## Where the search goes on -/

/-- The address in `p`, a predecessor of `b`, of the pointer that is `A` in `b`. -/
def Setting.predAddr (S : Setting) (A : S.phi.Addr) (b p : BlockId) : Option Value :=
  if S.phi.needsPHITranslationFromBlock A b then S.phi.getAddr (S.phi.pHITranslateValue A b p)
  else S.phi.getAddr A

/-- From a transparent block the search goes on in all predecessors, unless the translation fails. -/
theorem Part.preds_visited (hp : Part F c w c' w') : ∀ f BB, w.control = .transparent f BB →
    (∃ f', w'.control = .failed f' BB) ∨
      ∀ p ∈ S.getPreds BB, w'.visited p = some (S.predAddr f.pointer BB p) := by
  intro f BB hw
  cases hp with
  | spread hw' hneeds hvisit =>
    cases hw.symm.trans hw'
    obtain ⟨new, _, hm⟩ := visitPreds_marks hvisit
    refine .inr fun p hp => ?_
    rw [Setting.predAddr, if_neg (by simp [hneeds])]
    exact hm.preds p hp
  | translate hw' hneeds hvisit =>
    cases hw.symm.trans hw'
    obtain ⟨new, _, hm⟩ := visitPreds_marks hvisit
    refine .inr fun p hp => ?_
    rw [Setting.predAddr, if_pos hneeds]
    exact hm.preds p hp
  | stick hw' hpointer hloc hwork hskip hc hstuck =>
    cases hw.symm.trans hw'
    exact .inl ⟨_, rfl⟩
  | _ => simp_all

/-- The entries of `P` go on from `b`: no predecessor sees the pointer under another value. -/
def Caches.Continues (S : Setting) (c : Caches) (P : ValueIsLoadPair) (b : BlockId) : Prop :=
  ∃ A, S.phi.getAddr A = P.1 ∧ S.phi.needsPHITranslationFromBlock A b = false ∧
    ∀ p ∈ S.getPreds b, p ∈ c.blocks P

/-- The entries of `P` answer the query that starts from `b0`. -/
structure PairComplete (S : Setting) (c : Caches) (P : ValueIsLoadPair) (b0 : BlockId)
    (s0 : Bool) : Prop where
  isSome : P.1.isSome
  clean : ∀ e ∈ c.entries P, e.result.isDirty = false
  start : if s0 then c.Continues S P b0 else b0 ∈ c.blocks P
  closed : ∀ e ∈ c.entries P, Opens S e → c.Continues S P e.BB

/-- Every record that is said to be complete is. -/
def AllComplete (S : Setting) (c : Caches) : Prop :=
  ∀ P b0 s0, (c.info P).pair = some (b0, s0) → PairComplete S c P b0 s0

/-! ## Records under a walk -/

/-- An activation for `P` waits for its calls, after which `P` is not complete. -/
def Walk.Calling (w : Walk S) (P : ValueIsLoadPair) : Prop :=
  (∃ f predList, w.control = .preds f predList ∧ f.key w.isLoad = P) ∨
    ∃ s ∈ w.stack, s.frame.key w.isLoad = P

/-- The walk is at the block `b` of an activation for `P`. -/
def Walk.At (w : Walk S) (P : ValueIsLoadPair) (b : BlockId) : Prop :=
  match w.control with
  | .transparent f BB | .failed f BB => f.key w.isLoad = P ∧ b = BB
  | _ => False

/-- An activation for `P` starts from `b0`. -/
def Walk.Starts (w : Walk S) (P : ValueIsLoadPair) (b0 : BlockId) (s0 : Bool) : Prop :=
  match w.control with
  | .iterate f => f.key w.isLoad = P ∧ f.worklist = [b0] ∧ f.skipFirstBlock = s0
  | _ => False

/-- The search for `P` has gone on from `b`, in this walk or before it. -/
def Walk.Continues (w : Walk S) (c : Caches) (P : ValueIsLoadPair) (b : BlockId) : Prop :=
  ∃ A, S.phi.getAddr A = P.1 ∧
    (S.phi.needsPHITranslationFromBlock A b = true → w.Calling P) ∧
    ∀ p ∈ S.getPreds b, (P.2 = w.isLoad ∧ w.visited p = some (S.predAddr A b p)) ∨
      (S.phi.needsPHITranslationFromBlock A b = false ∧ p ∈ c.blocks P)

/-- The walk deals with `b`, or has dealt with it. -/
abbrev Walk.Reaches (w : Walk S) (c : Caches) (P : ValueIsLoadPair) (b : BlockId) : Prop :=
  w.At P b ∨ w.Continues c P b

structure PairOk (w : Walk S) (c : Caches) (P : ValueIsLoadPair) (b0 : BlockId) (s0 : Bool) :
    Prop where
  isSome : P.1.isSome
  clean : ∀ e ∈ c.entries P, e.result.isDirty = false
  start : w.Starts P b0 s0 ∨ if s0 then w.Reaches c P b0 else b0 ∈ c.blocks P
  closed : ∀ e ∈ c.entries P, Opens S e → w.Reaches c P e.BB

/-- The first block of the query is skipped. -/
def Control.skips : Control S → Bool
  | .enter _ _ _ skip | .lookup _ _ _ skip => skip
  | .iterate f | .transparent f _ | .failed f _ => f.skipFirstBlock
  | .preds .. | .ret _ => false

/-- The call is one for the predecessor that the last activation waits for. -/
def Walk.Linked (w : Walk S) : Control S → Prop
  | .enter pointer _ startBB skip | .lookup pointer _ startBB skip =>
    skip = false → ∃ s stack, w.stack = s :: stack ∧ s.pred = startBB ∧
      s.predPtrVal = S.phi.getAddr pointer
  | _ => True

structure WalkPairs (c : Caches) (w : Walk S) : Prop where
  pairs : ∀ P b0 s0, (c.info P).pair = some (b0, s0) → PairOk w c P b0 s0
  /-- A block that has been looked at for an address has an entry. -/
  looked : ∀ b v, w.visited b = some (some v) →
    w.Waits b (some v) ∨ b ∈ c.blocks (some v, w.isLoad)
  scanned : ∀ f BB, w.control = .transparent f BB → f.skipFirstBlock = false →
    BB ∈ c.blocks (f.key w.isLoad)
  linked : w.Linked w.control
  returned : w.control = .ret true → ∀ s ∈ w.stack.head?,
    s.pred ∈ c.blocks (s.predPtrVal, w.isLoad)
  first : w.control.skips = true → w.stack = [] ∧ ∀ b, w.visited b = none

/-! ## What a part leaves of a record -/

/-- The record of `P` has no new entries. -/
structure KeepsRecord (c c' : Caches) (P : ValueIsLoadPair) : Prop where
  pair : (c'.info P).pair = (c.info P).pair
  entries : ∀ e ∈ c'.entries P, e ∈ c.entries P
  blocks : ∀ b ∈ c.blocks P, b ∈ c'.blocks P

theorem keepsRecord_of_eq (h : c'.info P = c.info P) : KeepsRecord c c' P := by
  have hentries : c'.entries P = c.entries P := by rw [Caches.entries, h, Caches.entries]
  refine ⟨by rw [h], fun e he => hentries ▸ he, fun b hb => ?_⟩
  rwa [Caches.blocks, hentries]

theorem keepsRecord_sort {isLoad : Bool} : KeepsRecord c (f.sort c isLoad) P := by
  by_cases hP : P = f.key isLoad
  · subst hP
    refine ⟨by simp [Caches.setEntries], fun e he => ?_, retains_sort.blocks _⟩
    rw [Caches.entries_setEntries] at he
    exact (sort_perm _ _).mem_iff.mp he
  · exact keepsRecord_of_eq (Caches.info_setInfo_of_ne hP)

/-- Only another record can still be complete. -/
theorem ne_of_setPair (h : ((c.setPair key none).info P).pair = some (b0, s0)) : P ≠ key := by
  rintro rfl
  simp [Caches.setPair] at h

theorem keepsRecord_setPair {pair : Option (BlockId × Bool)} (h : P ≠ key) :
    KeepsRecord c (c.setPair key pair) P :=
  keepsRecord_of_eq (Caches.info_setInfo_of_ne h)

theorem Reconciles.keepsRecord {loc : Location} {restart : Option Location}
    (h : Reconciles key loc c c' restart) (hpair : (c'.info P).pair = some (b0, s0)) :
    KeepsRecord c c' P := by
  have hsame : c'.nonLocalPointerDeps P = c.nonLocalPointerDeps P := by
    by_cases hP : P = key
    · subst hP
      rcases h.record with hsame | ⟨hnone, _⟩
      · exact hsame
      · rw [hnone] at hpair
        cases hpair
    · exact h.frame P hP
  exact keepsRecord_of_eq (by simp only [Caches.info, hsame])

theorem Walk.Continues.mono {b : BlockId} (h : w.Continues c P b) (hload : w'.isLoad = w.isLoad)
    (hblocks : ∀ b ∈ c.blocks P, b ∈ c'.blocks P)
    (hvisited : ∀ b a, w.visited b = some a → w'.visited b = some a)
    (hcalling : w.Calling P → w'.Calling P) : w'.Continues c' P b := by
  obtain ⟨A, hA, hneeds, hpreds⟩ := h
  refine ⟨A, hA, fun hx => hcalling (hneeds hx), fun p hp => ?_⟩
  rcases hpreds p hp with ⟨hP, hmark⟩ | ⟨hx, hblock⟩
  · exact .inl ⟨hP.trans hload.symm, hvisited p _ hmark⟩
  · exact .inr ⟨hx, hblocks p hblock⟩

/-- A record with the entries it had, and perhaps one for the block the walk has come to. -/
theorem PairOk.mono (h : PairOk w c P b0 s0) (hload : w'.isLoad = w.isLoad)
    (hentries : ∀ e ∈ c'.entries P, e ∈ c.entries P ∨
      e.result.isDirty = false ∧ (Opens S e → w'.At P e.BB))
    (hblocks : ∀ b ∈ c.blocks P, b ∈ c'.blocks P)
    (hvisited : ∀ b a, w.visited b = some a → w'.visited b = some a)
    (hcalling : w.Calling P → w'.Calling P) (hat : ∀ b, w.At P b → w'.Reaches c' P b)
    (hstarts : w.Starts P b0 s0 → w'.Starts P b0 s0 ∨
      if s0 then w'.Reaches c' P b0 else b0 ∈ c'.blocks P) : PairOk w' c' P b0 s0 := by
  have hreaches : ∀ b, w.Reaches c P b → w'.Reaches c' P b := by
    intro b hb
    rcases hb with hb | hb
    · exact hat b hb
    · exact .inr (hb.mono hload hblocks hvisited hcalling)
  refine ⟨h.isSome, fun e he => ?_, ?_, fun e he hopen => ?_⟩
  · rcases hentries e he with hold | hnew
    · exact h.clean e hold
    · exact hnew.1
  · rcases h.start with hs | hs
    · exact hstarts hs
    · refine .inr ?_
      cases s0 with
      | true => exact hreaches b0 hs
      | false => exact hblocks b0 hs
  · rcases hentries e he with hold | hnew
    · exact hreaches e.BB (h.closed e hold hopen)
    · exact .inl (hnew.2 hopen)

/-- A part that is at no block, before it and after it. -/
theorem PairOk.keep (h : PairOk w c P b0 s0) (hload : w'.isLoad = w.isLoad)
    (hc : KeepsRecord c c' P) (hvisited : ∀ b a, w.visited b = some a → w'.visited b = some a)
    (hcalling : w.Calling P → w'.Calling P) (hat : ∀ b, ¬ w.At P b)
    (hstarts : ¬ w.Starts P b0 s0) : PairOk w' c' P b0 s0 :=
  h.mono hload (fun e he => .inl (hc.entries e he)) hc.blocks hvisited hcalling
    (fun b hb => absurd hb (hat b)) fun hs => absurd hs hstarts

/-- The activations that wait for calls still do. -/
theorem Walk.Calling.mono (h : w.Calling P) (hw : ∀ f predList, w.control ≠ .preds f predList)
    (hload : w'.isLoad = w.isLoad) (hstack : w'.stack = w.stack) : w'.Calling P := by
  rcases h with ⟨f, predList, hf, _⟩ | h
  · exact absurd hf (hw f predList)
  · refine .inr ?_
    rw [hload, hstack]
    exact h

/-- The last activation that waits goes on with its predecessors. -/
theorem Walk.Calling.pop (h : w.Calling P) {failed : Bool} (hw : w.control = .ret failed)
    {s : Suspended S} {stack : List (Suspended S)} (hstack : w.stack = s :: stack)
    {result : List NonLocalDepResult} :
    Walk.Calling { w with
      result := result
      control := .preds s.frame s.predList
      stack := stack } P := by
  rcases h with ⟨f, predList, hf, _⟩ | ⟨s', hs', hkey⟩
  · rw [hw] at hf
    cases hf
  · rw [hstack] at hs'
    rcases List.mem_cons.mp hs' with rfl | hs'
    · exact .inl ⟨_, _, rfl, hkey⟩
    · exact .inr ⟨s', hs', hkey⟩

/-- What waits in an activation that goes on, and what waits in the others. -/
theorem Walk.Waits.step {b : BlockId} {a : Option Value} {p : Prop} (h : w.Waits b a)
    (hret : w.control ≠ .ret true) (hstack : w'.stack = w.stack)
    (hwaits : w.control.Waits b a → w'.control.Waits b a ∨ p) : w'.Waits b a ∨ p := by
  rcases h with hx | hx | hx
  · exact (hwaits hx).imp_left .inl
  · exact absurd hx.1 hret
  · exact .inl (.inr (.inr (hstack ▸ hx)))

/-- What waits when an activation returns waits when the last one has gone on, apart from the
predecessor of a failed call. -/
theorem Walk.Waits.pop {b : BlockId} {a : Option Value} (h : w.Waits b a) {failed : Bool}
    (hw : w.control = .ret failed) {s : Suspended S} {stack : List (Suspended S)}
    (hstack : w.stack = s :: stack) {result : List NonLocalDepResult} :
    (failed = true ∧ b = s.pred ∧ a = s.predPtrVal) ∨
      Walk.Waits { w with
        result := result
        control := .preds s.frame s.predList
        stack := stack } b a := by
  rcases h with h | ⟨hret, s', hs', hb⟩ | ⟨s', hs', h⟩
  · rw [hw] at h
    exact h.elim
  · rw [hw] at hret
    cases hret
    rw [hstack, List.head?_cons] at hs'
    cases hs'
    exact .inl ⟨rfl, hb⟩
  · rw [hstack] at hs'
    rcases List.mem_cons.mp hs' with rfl | hs'
    · exact .inr (.inl h)
    · exact .inr (.inr (.inr ⟨s', hs', h⟩))

/-- The lookup for the next block keeps the other entries of the record. -/
theorem ScansBlock.entries {Loc : Location} {isLoad : Bool} {BB : BlockId} {Dep : FlowDepResult}
    (h : ScansBlock F key Loc isLoad BB c c' Dep) {e : NonLocalDepEntry} (he : e ∈ c'.entries P) :
    e ∈ c.entries P ∨ P = key ∧ e = ⟨BB, Dep⟩ := by
  by_cases hP : P = key
  · subst hP
    exact (h.old e he).imp_right fun hx => ⟨rfl, hx⟩
  · left
    simpa only [Caches.entries, Caches.info, h.frame P hP] using he

theorem ScansBlock.pair_eq {Loc : Location} {isLoad : Bool} {BB : BlockId} {Dep : FlowDepResult}
    (h : ScansBlock F key Loc isLoad BB c c' Dep) : (c'.info P).pair = (c.info P).pair := by
  by_cases hP : P = key
  · rw [hP, h.pair]
  · simp only [Caches.info, h.frame P hP]

/-- The first block of the worklist is looked at. -/
theorem PairOk.scan (h : PairOk w c P b0 s0) {BB : BlockId} {worklist : List BlockId}
    {Dep : FlowDepResult} (hw : w.control = .iterate f) (hwork : f.worklist = BB :: worklist)
    (hskip : f.skipFirstBlock = false)
    (hs : ScansBlock F (f.key w.isLoad) f.loc w.isLoad BB c c' Dep) (hload : w'.isLoad = w.isLoad)
    (hstack : w'.stack = w.stack) (hvisited : w'.visited = w.visited)
    (hopen : Opens S ⟨BB, Dep⟩ → w'.At (f.key w.isLoad) BB) : PairOk w' c' P b0 s0 := by
  refine h.mono hload (fun e he => ?_) (hs.retains.blocks P) (fun b a hv => hvisited ▸ hv)
    (fun hx => hx.mono (by simp [hw]) hload hstack) (by simp [Walk.At, hw]) fun hstarts => ?_
  · rcases hs.entries he with hold | ⟨rfl, rfl⟩
    · exact .inl hold
    · exact .inr ⟨hs.notDirty, hopen⟩
  · -- the first block has an entry now
    simp only [Walk.Starts, hw, hwork, hskip] at hstarts
    obtain ⟨rfl, hb0, rfl⟩ := hstarts
    obtain ⟨rfl, _⟩ := List.cons.inj hb0
    exact .inr (List.mem_map.mpr ⟨_, hs.mem, rfl⟩)

theorem WalkPairs.pairs_part (h : WalkPairs c w) (hfits : WalkFits F c w)
    (hp : Part F c w c' w') :
    ∀ P b0 s0, (c'.info P).pair = some (b0, s0) → PairOk w' c' P b0 s0 := by
  intro P b0 s0 hpair
  have hcontrol := hfits.control
  have hexpanded := hp.preds_visited
  have hvisited : ∀ b a, w.visited b = some a → w'.visited b = some a := fun _ _ => hp.visited_mono
  cases hp with
  | restart hw hr =>
    have hk := (reconcile_reconciles hr).keepsRecord hpair
    exact (h.pairs P b0 s0 (hk.pair ▸ hpair)).keep rfl hk (fun _ _ hv => hv)
      (fun hx => hx.mono (by simp [hw]) rfl rfl) (by simp [Walk.At, hw]) (by simp [Walk.Starts, hw])
  | agree hw hr =>
    have hk := (reconcile_reconciles hr).keepsRecord hpair
    exact (h.pairs P b0 s0 (hk.pair ▸ hpair)).keep rfl hk (fun _ _ hv => hv)
      (fun hx => hx.mono (by simp [hw]) rfl rfl) (by simp [Walk.At, hw]) (by simp [Walk.Starts, hw])
  | conflict hw _ _ =>
    exact (h.pairs P b0 s0 hpair).keep rfl (keepsRecord_of_eq rfl) (fun _ _ hv => hv)
      (fun hx => hx.mono (by simp [hw]) rfl rfl) (by simp [Walk.At, hw]) (by simp [Walk.Starts, hw])
  | cached hw _ hsame =>
    exact (h.pairs P b0 s0 hpair).keep rfl (keepsRecord_of_eq rfl) (fun _ _ hv => useCached_mono hv)
      (fun hx => hx.mono (by simp [hw]) rfl rfl) (by simp [Walk.At, hw]) (by simp [Walk.Starts, hw])
  | @start pointer loc startBB skip hw =>
    simp only [hw, ControlFits] at hcontrol
    by_cases hP : P = (S.phi.getAddr pointer, w.isLoad)
    · -- the record is new: nothing has been entered yet
      subst hP
      simp only [Caches.setPair, Caches.info_setInfo] at hpair
      split at hpair
      next hnil =>
        cases hpair
        refine ⟨by rw [hcontrol.1.ptr]; exact hcontrol.1.isSome, ?_, .inl ⟨rfl, rfl, rfl⟩, ?_⟩
        · simp [hnil]
        · simp [hnil]
      next => cases hpair
    · have hk : KeepsRecord c (c.setPair (S.phi.getAddr pointer, w.isLoad)
          (if c.entries (S.phi.getAddr pointer, w.isLoad) = [] then some (startBB, skip)
            else none)) P := keepsRecord_setPair hP
      exact (h.pairs P b0 s0 (hk.pair ▸ hpair)).keep rfl hk (fun _ _ hv => hv)
        (fun hx => hx.mono (by simp [hw]) rfl rfl) (by simp [Walk.At, hw])
        (by simp [Walk.Starts, hw])
  | @finish f hw hwork =>
    have hk : KeepsRecord c (f.sort c w.isLoad) P := keepsRecord_sort
    exact (h.pairs P b0 s0 (hk.pair ▸ hpair)).keep rfl hk (fun _ _ hv => hv)
      (fun hx => hx.mono (by simp [hw]) rfl rfl) (by simp [Walk.At, hw])
      (by simp [Walk.Starts, hw, hwork])
  | skip hw hwork hskip =>
    refine (h.pairs P b0 s0 hpair).mono rfl (fun e he => .inl he) (fun _ hb => hb)
      (fun _ _ hv => hv) (fun hx => hx.mono (by simp [hw]) rfl rfl) (by simp [Walk.At, hw])
      fun hstarts => ?_
    simp only [Walk.Starts, hw, hwork, hskip] at hstarts
    obtain ⟨hkey, hb0, rfl⟩ := hstarts
    exact .inr (.inl ⟨hkey, (List.cons.inj hb0).1.symm⟩)
  | report hw hwork hskip hlook hclosed hr =>
    simp only [hw, ControlFits] at hcontrol
    have hs := hcontrol.scansBlock hfits.faithful hwork hlook
    exact (h.pairs P b0 s0 (hs.pair_eq ▸ hpair)).scan hw hwork hskip hs rfl rfl rfl
      fun hopen => absurd hopen hclosed
  | pass hw hwork hskip hlook hopen =>
    simp only [hw, ControlFits] at hcontrol
    have hs := hcontrol.scansBlock hfits.faithful hwork hlook
    exact (h.pairs P b0 s0 (hs.pair_eq ▸ hpair)).scan hw hwork hskip hs rfl rfl rfl
      fun _ => ⟨rfl, rfl⟩
  | @spread f BB visited NewBlocks hw hneeds hvisit =>
    refine (h.pairs P b0 s0 hpair).mono rfl (fun e he => .inl he) (fun _ hb => hb) hvisited
      (fun hx => hx.mono (by simp [hw]) rfl rfl) (fun b hb => .inr ?_) (by simp [Walk.Starts, hw])
    simp only [Walk.At, hw] at hb
    obtain ⟨rfl, rfl⟩ := hb
    refine ⟨f.pointer, rfl, fun hx => ?_, fun p hp => .inl ⟨rfl, ?_⟩⟩
    · rw [hneeds] at hx
      cases hx
    · exact (hexpanded f _ hw).resolve_left (by simp) p hp
  | @translate f BB visited NewBlocks hw hneeds hvisit =>
    have hk : KeepsRecord c (f.sort c w.isLoad) P := keepsRecord_sort
    refine (h.pairs P b0 s0 (hk.pair ▸ hpair)).mono rfl (fun e he => .inl (hk.entries e he))
      hk.blocks hvisited (fun hx => hx.mono (by simp [hw]) rfl rfl) (fun b hb => .inr ?_)
      (by simp [Walk.Starts, hw])
    simp only [Walk.At, hw] at hb
    obtain ⟨rfl, rfl⟩ := hb
    refine ⟨f.pointer, rfl, fun _ => .inl ⟨_, _, rfl, rfl⟩, fun p hp => .inl ⟨rfl, ?_⟩⟩
    exact (hexpanded f _ hw).resolve_left (by simp) p hp
  | @stick f f' BB c' hw hpointer hloc hwork hskip hc hstuck =>
    have hk : KeepsRecord c c' P := by
      rcases hc with rfl | rfl
      · exact keepsRecord_of_eq rfl
      · exact keepsRecord_sort
    refine (h.pairs P b0 s0 (hk.pair ▸ hpair)).mono rfl (fun e he => .inl (hk.entries e he))
      hk.blocks (fun _ _ hv => hv) (fun hx => hx.mono (by simp [hw]) rfl rfl)
      (fun b hb => .inl ?_) (by simp [Walk.Starts, hw])
    simp only [Walk.At, hw] at hb
    obtain ⟨hkey, rfl⟩ := hb
    exact ⟨by rw [← hkey, Frame.key, Frame.key, hpointer], rfl⟩
  | giveUp hw hskip =>
    have hP := ne_of_setPair hpair
    have hk : KeepsRecord c (c.setPair _ none) P := keepsRecord_setPair hP
    exact (h.pairs P b0 s0 (hk.pair ▸ hpair)).keep rfl hk (fun _ _ hv => hv)
      (fun hx => hx.mono (by simp [hw]) rfl rfl)
      (by simp only [Walk.At, hw]; exact fun b hb => hP hb.1.symm) (by simp [Walk.Starts, hw])
  | @overwrite f BB es hw hskip hset =>
    have hP : P ≠ f.key w.isLoad := by
      rintro rfl
      simp [Caches.setPair, Caches.setEntries] at hpair
    have hk : KeepsRecord c
        ((c.setPair (f.key w.isLoad) none).setEntries (f.key w.isLoad) es) P :=
      keepsRecord_of_eq ((Caches.info_setInfo_of_ne hP).trans (Caches.info_setInfo_of_ne hP))
    exact (h.pairs P b0 s0 (hk.pair ▸ hpair)).keep rfl hk (fun _ _ hv => hv)
      (fun hx => hx.mono (by simp [hw]) rfl rfl)
      (by simp only [Walk.At, hw]; exact fun b hb => hP hb.1.symm) (by simp [Walk.Starts, hw])
  | resume hw =>
    have hP := ne_of_setPair hpair
    have hk : KeepsRecord c (c.setPair _ none) P := keepsRecord_setPair hP
    refine (h.pairs P b0 s0 (hk.pair ▸ hpair)).keep rfl hk (fun _ _ hv => hv) (fun hx => ?_)
      (by simp [Walk.At, hw]) (by simp [Walk.Starts, hw])
    -- the other activations that wait are on the stack
    rcases hx with ⟨f', predList, hf', hkey⟩ | hx
    · rw [hw] at hf'
      cases hf'
      exact absurd hkey.symm hP
    · exact .inr hx
  | untranslated hw haddr =>
    have hP := ne_of_setPair hpair
    have hk : KeepsRecord c (c.setPair _ none) P := keepsRecord_setPair hP
    refine (h.pairs P b0 s0 (hk.pair ▸ hpair)).keep rfl hk (fun _ _ hv => hv) (fun hx => ?_)
      (by simp [Walk.At, hw]) (by simp [Walk.Starts, hw])
    rcases hx with ⟨f', predList, hf', hkey⟩ | hx
    · rw [hw] at hf'
      cases hf'
      exact .inl ⟨_, _, rfl, hkey⟩
    · exact .inr hx
  | call hw haddr =>
    refine (h.pairs P b0 s0 hpair).keep rfl (keepsRecord_of_eq rfl) (fun _ _ hv => hv)
      (fun hx => ?_) (by simp [Walk.At, hw]) (by simp [Walk.Starts, hw])
    rcases hx with ⟨f', predList, hf', hkey⟩ | ⟨s, hs, hkey⟩
    · rw [hw] at hf'
      cases hf'
      exact .inr ⟨_, List.mem_cons_self .., hkey⟩
    · exact .inr ⟨s, List.mem_cons_of_mem _ hs, hkey⟩
  | retFailed hw hstack =>
    have hP := ne_of_setPair hpair
    have hk : KeepsRecord c (c.setPair _ none) P := keepsRecord_setPair hP
    refine (h.pairs P b0 s0 (hk.pair ▸ hpair)).keep rfl hk (fun _ _ hv => hv) (fun hx => ?_)
      (by simp [Walk.At, hw]) (by simp [Walk.Starts, hw])
    exact hx.pop hw hstack
  | ret hw hstack =>
    exact (h.pairs P b0 s0 hpair).keep rfl (keepsRecord_of_eq rfl) (fun _ _ hv => hv)
      (fun hx => hx.pop hw hstack) (by simp [Walk.At, hw]) (by simp [Walk.Starts, hw])

/-- The first block of a call has an entry, if a cached query answers the call. -/
theorem WalkPairs.startBB_mem (h : WalkPairs c w) {pointer : S.phi.Addr} {loc : Location}
    {startBB : BlockId} {skip : Bool} (hw : w.control = .lookup pointer loc startBB skip)
    (hpair : (c.info (S.phi.getAddr pointer, w.isLoad)).pair = some (startBB, skip))
    (hskip : skip = false) : startBB ∈ c.blocks (S.phi.getAddr pointer, w.isLoad) := by
  subst hskip
  rcases (h.pairs _ _ _ hpair).start with hx | hx
  · simp [Walk.Starts, hw] at hx
  · exact hx

/-! ## The blocks a part is done with -/

/-- The part leaves the block `b`: the cached entries of the address answer for it, or it is reported,
or the search goes on in its predecessors. It has an entry for the address `a` then. -/
inductive Leaves (c c' : Caches) (w w' : Walk S) (b : BlockId) (a : Option Value) : Prop
  | cached {pointer : S.phi.Addr} {loc : Location} {startBB : BlockId} {skip : Bool}
      (hw : w.control = .lookup pointer loc startBB skip)
      (hpair : (c.info (S.phi.getAddr pointer, w.isLoad)).pair = some (startBB, skip))
      (hsame : ∀ e ∈ c.entries (S.phi.getAddr pointer, w.isLoad), ∀ a,
        w.visited e.BB = some a → a = S.phi.getAddr pointer)
      (hw' : w' = w.useCached (S.phi.getAddr pointer)
        (c.entries (S.phi.getAddr pointer, w.isLoad)))
      (hc : c' = c) (ha : a = S.phi.getAddr pointer)
      (hb : b ∈ c.blocks (S.phi.getAddr pointer, w.isLoad))
  | reported {r : FlowDepResult} (hr : ⟨b, r, a⟩ ∈ w'.result)
      (hb : a.isSome → b ∈ c'.blocks (a, w.isLoad))
  | expanded {f : Frame S} (hw : w.control = .transparent f b) (hskip : f.skipFirstBlock = false)
      (ha : a = S.phi.getAddr f.pointer)
      (hpreds : ∀ p ∈ S.getPreds b, w'.visited p = some (S.predAddr f.pointer b p))
      (hb : b ∈ c'.blocks (f.key w.isLoad))

theorem Leaves.mem_blocks {b : BlockId} {v : Value} (h : Leaves c c' w w' b (some v)) :
    b ∈ c'.blocks (some v, w.isLoad) := by
  cases h with
  | cached hw hpair hsame hw' hc ha hb =>
    rw [hc, ha]
    exact hb
  | reported hr hb => exact hb rfl
  | expanded hw hskip ha hpreds hb =>
    rw [ha]
    exact hb

/-- Blocks that are marked wait, and those that waited still do, unless the part leaves them. -/
structure Moves (c c' : Caches) (w w' : Walk S) : Prop where
  marked : ∀ b a, w'.visited b = some a →
    w.visited b = some a ∨ w'.Waits b a ∨ Leaves c c' w w' b a
  waits : ∀ b a, w.Waits b a → w'.Waits b a ∨ Leaves c c' w w' b a

/-- A part of an activation that goes on. -/
theorem moves_of_step (hret : w.control ≠ .ret true) (hstack : w'.stack = w.stack)
    (hmarked : ∀ b a, w'.visited b = some a →
      w.visited b = some a ∨ w'.control.Waits b a ∨ Leaves c c' w w' b a)
    (hwaits : ∀ b a, w.control.Waits b a → w'.control.Waits b a ∨ Leaves c c' w w' b a) :
    Moves c c' w w' where
  marked b a hv := (hmarked b a hv).imp_right fun hx => hx.imp_left .inl
  waits b a hx := hx.step hret hstack (hwaits b a)

theorem WalkPairs.moves_part (h : WalkPairs c w) (hfits : WalkFits F c w)
    (hp : Part F c w c' w') : Moves c c' w w' := by
  have hcontrol := hfits.control
  have hexpanded := hp.preds_visited
  cases hp with
  | restart hw hr =>
    exact moves_of_step (by simp [hw]) rfl (fun _ _ hv => .inl hv)
      fun b a hx => .inl (by simpa only [hw, Control.Waits] using hx)
  | agree hw hr =>
    exact moves_of_step (by simp [hw]) rfl (fun _ _ hv => .inl hv)
      fun b a hx => .inl (by simpa only [hw, Control.Waits] using hx)
  | @conflict pointer loc startBB skip hw hpair hother =>
    refine ⟨fun _ _ hv => .inl hv, fun b a hx => .inl ?_⟩
    rcases hx with hx | hx | hx
    · -- the caller reports the predecessor
      simp only [hw, Control.Waits] at hx
      have hlinked := h.linked
      rw [hw] at hlinked
      obtain ⟨s, stack, hstack, hpred, hval⟩ := hlinked hx.1
      exact .inr (.inl ⟨rfl, s, by simp [hstack], hx.2.1.trans hpred.symm,
        hx.2.2.trans hval.symm⟩)
    · cases hw.symm.trans hx.1
    · exact .inr (.inr hx)
  | cached hw hpair hsame =>
    refine moves_of_step (by simp [hw]) rfl (fun b a hv => ?_) fun b a hx => .inr ?_
    · refine (useCached_visited hv).imp_right fun hx => .inr ?_
      obtain ⟨ha, e, he, rfl⟩ := hx
      exact .cached hw hpair hsame rfl rfl ha (List.mem_map_of_mem he)
    · simp only [hw, Control.Waits] at hx
      obtain ⟨hskip, rfl, ha⟩ := hx
      exact .cached hw hpair hsame rfl rfl ha (h.startBB_mem hw hpair hskip)
  | start hw =>
    refine moves_of_step (by simp [hw]) rfl (fun _ _ hv => .inl hv) fun b a hx => .inl ?_
    simp only [hw, Control.Waits] at hx
    exact ⟨hx.1, by simp [hx.2.1], hx.2.2⟩
  | finish hw hwork =>
    refine moves_of_step (by simp [hw]) rfl (fun _ _ hv => .inl hv) fun b a hx => ?_
    simp [hw, Control.Waits, Frame.Waits, hwork] at hx
  | skip hw hwork hskip =>
    refine moves_of_step (by simp [hw]) rfl (fun _ _ hv => .inl hv) fun b a hx => ?_
    simp [hw, Control.Waits, hskip] at hx
  | report hw hwork hskip hlook hclosed hr =>
    simp only [hw, ControlFits] at hcontrol
    have hs := hcontrol.scansBlock hfits.faithful hwork hlook
    refine moves_of_step (by simp [hw]) rfl (fun _ _ hv => .inl hv) fun b a hx => ?_
    simp only [hw, Control.Waits, Frame.Waits, hwork, List.mem_cons] at hx
    obtain ⟨_, rfl | hb, rfl⟩ := hx
    · refine .inr (.reported (List.mem_append_right _ (List.mem_singleton_self _)) fun _ => ?_)
      exact List.mem_map.mpr ⟨_, hs.mem, rfl⟩
    · exact .inl ⟨hskip, hb, rfl⟩
  | pass hw hwork hskip hlook hopen =>
    refine moves_of_step (by simp [hw]) rfl (fun _ _ hv => .inl hv) fun b a hx => .inl ?_
    simp only [hw, Control.Waits, Frame.Waits, hwork, List.mem_cons] at hx
    obtain ⟨_, rfl | hb, ha⟩ := hx
    · exact ⟨hskip, .inl ⟨rfl, ha⟩⟩
    · exact ⟨hskip, .inr ⟨hb, ha⟩⟩
  | @spread f BB visited NewBlocks hw hneeds hvisit =>
    obtain ⟨new, hnb, hm⟩ := visitPreds_marks hvisit
    rw [List.nil_append] at hnb
    subst hnb
    refine moves_of_step (by simp [hw]) rfl (fun b a hv => ?_) fun b a hx => ?_
    · refine (hm.marked b a hv).imp_right fun hnew => .inl ⟨rfl, ?_, hnew.2⟩
      exact List.mem_append_left _ (List.mem_reverse.mpr hnew.1)
    · simp only [hw, Control.Waits] at hx
      obtain ⟨hskip, ⟨rfl, ha⟩ | ⟨hb, ha⟩⟩ := hx
      · exact .inr (.expanded hw hskip ha ((hexpanded f _ hw).resolve_left (by simp))
          (h.scanned f _ hw hskip))
      · exact .inl ⟨rfl, List.mem_append_right _ hb, ha⟩
  | @translate f BB visited NewBlocks hw hneeds hvisit =>
    obtain ⟨new, hnb, hm⟩ := visitPreds_marks hvisit
    rw [List.nil_append] at hnb
    subst hnb
    refine moves_of_step (by simp [hw]) rfl (fun b a hv => ?_) fun b a hx => ?_
    · refine (hm.marked b a hv).imp_right fun hnew => .inl (.inl ⟨_, ?_, hnew.2⟩)
      exact List.mem_map_of_mem hnew.1
    · simp only [hw, Control.Waits] at hx
      obtain ⟨hskip, ⟨rfl, ha⟩ | ⟨hb, ha⟩⟩ := hx
      · exact .inr (.expanded hw hskip ha ((hexpanded f _ hw).resolve_left (by simp))
          (retains_sort.blocks _ _ (h.scanned f _ hw hskip)))
      · exact .inl (.inr ⟨hb, ha⟩)
  | stick hw hpointer hloc hwork hskip hc hstuck =>
    refine moves_of_step (by simp [hw]) rfl (fun _ _ hv => .inl hv) fun b a hx => .inl ?_
    simp only [hw, Control.Waits, Frame.Waits] at hx
    simp only [Control.Waits, Frame.Waits, hpointer, hwork]
    refine ⟨?_, hx.2⟩
    rcases hskip with hskip | hskip
    · rw [hskip, hx.1]
    · exact hskip.1
  | giveUp hw hskip =>
    refine moves_of_step (by simp [hw]) rfl (fun _ _ hv => .inl hv) fun b a hx => ?_
    simp [hw, Control.Waits, hskip] at hx
  | @overwrite f BB es hw hskip hset =>
    refine moves_of_step (by simp [hw]) rfl (fun _ _ hv => .inl hv) fun b a hx => ?_
    simp only [hw, Control.Waits] at hx
    obtain ⟨_, ⟨rfl, rfl⟩ | hb⟩ := hx
    · refine .inr (.reported (List.mem_append_right _ (List.mem_singleton_self _)) fun _ => ?_)
      obtain ⟨pre, e, post, hes, rfl, _⟩ := of_setLastResult hset
      refine (retains_overwrite hset).blocks (f.key w.isLoad) _ ?_
      rw [Caches.blocks, hes]
      simp
    · exact .inl ⟨hskip, hb⟩
  | resume hw =>
    refine moves_of_step (by simp [hw]) rfl (fun _ _ hv => .inl hv) fun b a hx => .inl ?_
    simp only [hw, Control.Waits, PredsWait, List.not_mem_nil, false_and, exists_false,
      false_or] at hx
    exact ⟨rfl, hx⟩
  | untranslated hw haddr =>
    refine moves_of_step (by simp [hw]) rfl (fun _ _ hv => .inl hv) fun b a hx => ?_
    simp only [hw, Control.Waits] at hx
    rcases hx with ⟨A, hA, rfl⟩ | hx
    · rcases List.mem_cons.mp hA with hA | hA
      · cases hA
        rw [haddr]
        exact .inr (.reported (List.mem_append_right _ (List.mem_singleton_self _)) (by simp))
      · exact .inl (.inl ⟨A, hA, rfl⟩)
    · exact .inl (.inr hx)
  | call hw haddr =>
    refine ⟨fun _ _ hv => .inl hv, fun b a hx => .inl ?_⟩
    rcases hx with hx | hx | ⟨s, hs, hx⟩
    · simp only [hw, Control.Waits] at hx
      rcases hx with ⟨A, hA, ha⟩ | hx
      · rcases List.mem_cons.mp hA with hA | hA
        · cases hA
          exact .inl ⟨rfl, rfl, ha⟩
        · exact .inr (.inr ⟨_, List.mem_cons_self .., .inl ⟨A, hA, ha⟩⟩)
      · exact .inr (.inr ⟨_, List.mem_cons_self .., .inr hx⟩)
    · cases hw.symm.trans hx.1
    · exact .inr (.inr ⟨s, List.mem_cons_of_mem _ hs, hx⟩)
  | @retFailed s stack hw hstack =>
    refine ⟨fun _ _ hv => .inl hv, fun b a hx => ?_⟩
    rcases hx.pop hw hstack with ⟨_, rfl, rfl⟩ | hx
    · refine .inr (.reported (List.mem_append_right _ (List.mem_singleton_self _)) fun _ => ?_)
      exact retains_setPair.blocks _ _ (h.returned hw s (by simp [hstack]))
    · exact .inl hx
  | ret hw hstack =>
    refine ⟨fun _ _ hv => .inl hv, fun b a hx => ?_⟩
    rcases hx.pop hw hstack with ⟨hfailed, _⟩ | hx
    · cases hfailed
    · exact .inl hx

/-- Every block that has been looked at for an address has an entry. -/
abbrev Looked (c : Caches) (w : Walk S) : Prop :=
  ∀ b v, w.visited b = some (some v) → w.Waits b (some v) ∨ b ∈ c.blocks (some v, w.isLoad)

/-- A record that is thrown out has no entry for a block that was looked at. -/
theorem Reconciles.looked {loc : Location} {restart : Option Location}
    (hr : Reconciles key loc c c' restart) (hunused : (c.info key).ClearedBy loc → w.Unused key)
    {b : BlockId} {v : Value} (hv : w.visited b = some (some v))
    (hb : b ∈ c.blocks (some v, w.isLoad)) :
    w.Waits b (some v) ∨ b ∈ c'.blocks (some v, w.isLoad) := by
  by_cases hP : ((some v, w.isLoad) : ValueIsLoadPair) = key
  · subst hP
    rcases hr.record with hsame | ⟨_, _, hnone | hclear⟩
    · right
      simpa only [Caches.blocks, Caches.entries, Caches.info, hsame] using hb
    · rw [Caches.blocks, Caches.entries_of_none hnone] at hb
      cases hb
    · exact .inl ((hunused hclear).visited b hv)
  · right
    simpa only [Caches.blocks, Caches.entries, Caches.info, hr.frame _ hP] using hb

theorem WalkPairs.looked_part (h : WalkPairs c w) (hfits : WalkFits F c w) (hsound : w.Sound c)
    (hp : Part F c w c' w') : Looked c' w' := by
  have hmoves := h.moves_part hfits hp
  intro b v hv
  rw [hp.sameQuery.isLoad]
  have hwaits : w.Waits b (some v) → w'.Waits b (some v) ∨ b ∈ c'.blocks (some v, w.isLoad) :=
    fun hx => (hmoves.waits b _ hx).imp_right Leaves.mem_blocks
  rcases hmoves.marked b _ hv with hv | hx | hx
  · rcases h.looked b v hv with hx | hb
    · exact hwaits hx
    · rcases hp.retains hfits with ⟨pointer, loc, startBB, skip, restart, hw, hr⟩ | hretains
      · simp only [Walk.Sound, hw] at hsound
        rcases hr.looked hsound hv hb with hx | hb
        · exact hwaits hx
        · exact .inr hb
      · exact .inr (hretains.blocks _ b hb)
  · exact .inl hx
  · exact .inr hx.mem_blocks

/-! ## The other facts about a walk -/

theorem WalkPairs.first_part (h : WalkPairs c w) (hp : Part F c w c' w') :
    w'.control.skips = true → w'.stack = [] ∧ ∀ b, w'.visited b = none := by
  have hfirst := h.first
  cases hp with
  | restart hw hr => exact fun hx => hfirst (by rwa [hw])
  | agree hw hr => exact fun hx => hfirst (by rwa [hw])
  | start hw => exact fun hx => hfirst (by rwa [hw])
  | skip hw hwork hskip => exact fun hx => hfirst (by rwa [hw])
  | stick hw hpointer hloc hwork hskip hc hstuck =>
    intro hx
    rcases hskip with hskip | ⟨hskip, _⟩
    · exact hfirst (by rw [hw]; exact hskip.symm.trans hx)
    · simp [Control.skips, hskip] at hx
  | report hw hwork hskip hlook hclosed hr => simp [Control.skips, hskip]
  | pass hw hwork hskip hlook hopen => simp [Control.skips, hskip]
  | overwrite hw hskip hset => simp [Control.skips, hskip]
  | _ => simp [Control.skips, Walk.useCached]

theorem WalkPairs.linked_part (h : WalkPairs c w) (hp : Part F c w c' w') :
    w'.Linked w'.control := by
  have hlinked := h.linked
  cases hp with
  | restart hw hr =>
    rw [hw] at hlinked
    exact hlinked
  | agree hw hr =>
    rw [hw] at hlinked
    exact hlinked
  | call hw haddr => exact fun _ => ⟨_, _, rfl, rfl, haddr.symm⟩
  | _ => exact trivial

theorem scanned_part (hfits : WalkFits F c w) (hp : Part F c w c' w') :
    ∀ f BB, w'.control = .transparent f BB → f.skipFirstBlock = false →
      BB ∈ c'.blocks (f.key w'.isLoad) := by
  intro f BB hf hskip'
  have hcontrol := hfits.control
  cases hp with
  | skip hw hwork hskip =>
    cases hf
    cases hskip.symm.trans hskip'
  | pass hw hwork hskip hlook hopen =>
    cases hf
    simp only [hw, ControlFits] at hcontrol
    have hs := hcontrol.scansBlock hfits.faithful hwork hlook
    exact List.mem_map.mpr ⟨_, hs.mem, rfl⟩
  | _ => cases hf

theorem WalkPairs.returned_part (h : WalkPairs c w) (hp : Part F c w c' w') :
    w'.control = .ret true → ∀ s ∈ w'.stack.head?,
      s.pred ∈ c'.blocks (s.predPtrVal, w'.isLoad) := by
  intro hret s hs
  cases hp with
  | @conflict pointer loc startBB skip hw hpair hother =>
    cases hskip : skip with
    | true =>
      have hnil := (h.first (by rw [hw]; exact hskip)).1
      simp [hnil] at hs
    | false =>
      have hlinked := h.linked
      rw [hw] at hlinked
      obtain ⟨s', stack, hstack, hpred, hval⟩ := hlinked hskip
      simp only [hstack, List.head?_cons, Option.mem_some_iff] at hs
      subst hs
      rw [hpred, hval]
      exact h.startBB_mem hw hpair hskip
  | giveUp hw hskip =>
    have hnil := (h.first (by rw [hw]; exact hskip)).1
    simp [hnil] at hs
  | _ => cases hret

/-- A sound part of a walk keeps the records in order. -/
theorem WalkPairs.part (h : WalkPairs c w) (hfits : WalkFits F c w) (hsound : w.Sound c)
    (hp : Part F c w c' w') : WalkPairs c' w' where
  pairs := h.pairs_part hfits hp
  looked := h.looked_part hfits hsound hp
  scanned := scanned_part hfits hp
  linked := h.linked_part hp
  returned := h.returned_part hp
  first := h.first_part hp

/-- The record of a complete query, at the beginning of a walk. -/
theorem PairComplete.pairOk (h : PairComplete S c P b0 s0) : PairOk w c P b0 s0 := by
  have hreaches : ∀ b, c.Continues S P b → w.Reaches c P b := by
    intro b hb
    obtain ⟨A, hA, hneeds, hpreds⟩ := hb
    refine .inr ⟨A, hA, fun hx => ?_, fun p hp => .inr ⟨hneeds, hpreds p hp⟩⟩
    rw [hneeds] at hx
    cases hx
  refine ⟨h.isSome, h.clean, .inr ?_, fun e he hopen => hreaches e.BB (h.closed e he hopen)⟩
  have hstart := h.start
  cases s0 with
  | true => exact hreaches b0 hstart
  | false => exact hstart

/-- At the end of a walk every record that is said to be complete is. -/
theorem WalkPairs.complete (h : WalkPairs c w) {failed : Bool} (hw : w.control = .ret failed)
    (hstack : w.stack = []) : AllComplete S c := by
  intro P b0 s0 hpair
  have hok := h.pairs P b0 s0 hpair
  have hwaits : ∀ b a, ¬ w.Waits b a := by
    intro b a hx
    rcases hx with hx | ⟨_, s, hs, _⟩ | ⟨s, hs, _⟩
    · rw [hw] at hx
      exact hx
    · simp [hstack] at hs
    · simp [hstack] at hs
  have hcalling : ¬ w.Calling P := by
    rintro (⟨f, predList, hf, _⟩ | ⟨s, hs, _⟩)
    · cases hw.symm.trans hf
    · simp [hstack] at hs
  have hreaches : ∀ b, w.Reaches c P b → c.Continues S P b := by
    intro b hb
    rcases hb with hb | ⟨A, hA, hneeds, hpreds⟩
    · simp [Walk.At, hw] at hb
    · have hneeds : S.phi.needsPHITranslationFromBlock A b = false := by
        rw [Bool.eq_false_iff]
        exact fun hx => hcalling (hneeds hx)
      refine ⟨A, hA, hneeds, fun p hp => ?_⟩
      rcases hpreds p hp with ⟨hload, hmark⟩ | ⟨_, hp⟩
      · -- a block marked with the address of the record has been looked at
        rw [Setting.predAddr, if_neg (by simp [hneeds]), hA] at hmark
        obtain ⟨v, hv⟩ := Option.isSome_iff_exists.mp hok.isSome
        rw [hv] at hmark
        have hmem := (h.looked p v hmark).resolve_left (hwaits p _)
        rwa [← hv, ← hload] at hmem
      · exact hp
  refine ⟨hok.isSome, hok.clean, ?_, fun e he hopen => hreaches e.BB (hok.closed e he hopen)⟩
  rcases hok.start with hs | hs
  · simp [Walk.Starts, hw] at hs
  · cases s0 with
    | true => exact hreaches b0 hs
    | false => exact hs

end Walk

end FlowDep
end DepTaint
