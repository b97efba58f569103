import DepTaint.RemovedPointers

/-!
# PointerEntries

The cached entries of pointers agree with scans made afresh.

An entry is for the location that its record gives: the pointer of the key, with the size and the tag
of the record. `EntriesFaithful` says that it is what a scan of the whole block for this location
finds, or `Unknown`, or dirty at a place where such a scan may start again.

* `getNonLocalInfoForBlock_scans`: what the lookup for a block returns and leaves in the entries.
* `reconcile_reconciles`: what becomes of the record of a query.
* `removeInstruction_faithful`: a removal keeps the entries faithful.
-/

namespace DepTaint
namespace FlowDep

/-! ## Locations -/

/-- `l` is as large as `Loc` at least, and has its tag or none. -/
structure Location.Wider (Loc l : Location) : Prop where
  size : Loc.size ≤ l.size
  tbaaTag : l.tbaaTag = Loc.tbaaTag ∨ l.tbaaTag = none

theorem Location.Wider.refl (Loc : Location) : Loc.Wider Loc := ⟨Nat.le_refl _, .inl rfl⟩

theorem Location.Wider.trans {l l' l'' : Location} (h : l.Wider l') (h' : l'.Wider l'') :
    l.Wider l'' where
  size := Nat.le_trans h.size h'.size
  tbaaTag := by
    rcases h'.tbaaTag with htag | htag
    · rw [htag]
      exact h.tbaaTag
    · exact .inr htag

/-- What the scan of a block asks of an instruction, in a query for a pointer. -/
def ptrScanner (AA : AliasAnalysis) (Loc : Location) (isLoad : Bool) : Scanner where
  skip := isDbgInfo AA
  verdict := pointerVerdict AA Loc isLoad (isInvariantLoad AA isLoad none)

/-- The location the entries of `P` are for. -/
def NonLocalPointerInfo.location (info : NonLocalPointerInfo) (P : ValueIsLoadPair) : Location where
  ptr := P.1
  size := info.size
  tbaaTag := info.tbaaTag

section Entries

variable {AA : AliasAnalysis} {F F' : Function AA} {c c' : Caches} {P : ValueIsLoadPair}
  {Loc : Location} {isLoad : Bool} {BB : BlockId} {R : InstId}

/-- There is a record of `P`, and it is for a location like `Loc`. -/
def RecordedFor (c : Caches) (P : ValueIsLoadPair) (Loc : Location) : Prop :=
  ∃ info, c.nonLocalPointerDeps P = some info ∧ info.size = Loc.size ∧ info.tbaaTag = Loc.tbaaTag

theorem RecordedFor.location (h : RecordedFor c P Loc) (hP : P.1 = Loc.ptr) :
    (c.info P).location P = Loc := by
  obtain ⟨info, hinfo, hsize, htag⟩ := h
  simp only [NonLocalPointerInfo.location, Caches.info, hinfo, Option.getD_some, hsize, htag, hP]

theorem RecordedFor.congr (h : RecordedFor c P Loc)
    (hc : c'.nonLocalPointerDeps P = c.nonLocalPointerDeps P) : RecordedFor c' P Loc := by
  obtain ⟨info, hinfo, h⟩ := h
  exact ⟨info, hc.trans hinfo, h⟩

def EntriesFaithful (F : Function AA) (c : Caches) : Prop :=
  ∀ P, ∀ e ∈ c.entries P,
    Faithful (ptrScanner AA ((c.info P).location P) P.2) F e.BB none False e.result

theorem entriesFaithful_empty : EntriesFaithful F {} := by
  intro P e he
  simp [Caches.entries, Caches.info] at he

/-- The record of `P` is for the same location in `c'`, and holds no entry it did not hold. -/
structure Fewer (c c' : Caches) (P : ValueIsLoadPair) : Prop where
  size : (c'.info P).size = (c.info P).size
  tbaaTag : (c'.info P).tbaaTag = (c.info P).tbaaTag
  entries : ∀ e ∈ c'.entries P, e ∈ c.entries P

theorem fewer_of_eq (h : c'.nonLocalPointerDeps P = c.nonLocalPointerDeps P) : Fewer c c' P := by
  have hinfo : c'.info P = c.info P := by simp only [Caches.info, h]
  refine ⟨by rw [hinfo], by rw [hinfo], ?_⟩
  intro e he
  rwa [Caches.entries, hinfo] at he

theorem Fewer.location (h : Fewer c c' P) : (c'.info P).location P = (c.info P).location P := by
  simp only [NonLocalPointerInfo.location, h.size, h.tbaaTag]

theorem EntriesFaithful.fewer (h : EntriesFaithful F c)
    (hc : ∀ P, c'.entries P = [] ∨ Fewer c c' P) : EntriesFaithful F c' := by
  intro P e he
  rcases hc P with hnil | hfewer
  · rw [hnil] at he
    cases he
  · rw [hfewer.location]
    exact h P e (hfewer.entries e he)

/-! ## The lookup for a block -/

/-- The lookup for `BB` returns `Dep` and leaves it as the result of the entry. -/
structure ScansBlock (F : Function AA) (P : ValueIsLoadPair) (Loc : Location) (isLoad : Bool)
    (BB : BlockId) (c c' : Caches) (Dep : FlowDepResult) : Prop where
  notDirty : Dep.isDirty = false
  agrees : Agrees False Dep ((ptrScanner AA Loc isLoad).full F BB none)
  mem : ⟨BB, Dep⟩ ∈ c'.entries P
  old : ∀ e ∈ c'.entries P, e ∈ c.entries P ∨ e = ⟨BB, Dep⟩
  blocks : ∀ b ∈ c.blocks P, b ∈ c'.blocks P
  pair : (c'.info P).pair = (c.info P).pair
  recorded : ∀ Loc', RecordedFor c P Loc' → RecordedFor c' P Loc'
  frame : ∀ P', P' ≠ P → c'.nonLocalPointerDeps P' = c.nonLocalPointerDeps P'

theorem recordedFor_setInfo {info : NonLocalPointerInfo} (hsize : info.size = (c.info P).size)
    (htag : info.tbaaTag = (c.info P).tbaaTag) (h : RecordedFor c P Loc) :
    RecordedFor (c.setInfo P info) P Loc := by
  obtain ⟨info', hinfo, hs, ht⟩ := h
  have hget : c.info P = info' := by simp only [Caches.info, hinfo, Option.getD_some]
  rw [hget] at hsize htag
  exact ⟨info, by simp [Caches.setInfo], hsize.trans hs, htag.trans ht⟩

/-- The entries of a record are for the location it was made for. -/
theorem EntriesFaithful.recorded (h : EntriesFaithful F c) (hloc : RecordedFor c P Loc)
    (hptr : P.1 = Loc.ptr) {e : NonLocalDepEntry} (he : e ∈ c.entries P) :
    Faithful (ptrScanner AA Loc P.2) F e.BB none False e.result := by
  have hfaithful := h P e he
  rwa [hloc.location hptr] at hfaithful

/-- An entry is replaced where it stands. -/
theorem entries_set_spec {k : Nat} {e : NonLocalDepEntry} (hk : (c.entries P)[k]? = some e)
    (Dep : FlowDepResult) :
    (⟨e.BB, Dep⟩ : NonLocalDepEntry) ∈ (c.entries P).set k ⟨e.BB, Dep⟩ ∧
      (∀ x ∈ (c.entries P).set k ⟨e.BB, Dep⟩, x ∈ c.entries P ∨ x = ⟨e.BB, Dep⟩) ∧
      ∀ b ∈ c.blocks P, b ∈ ((c.entries P).set k ⟨e.BB, Dep⟩).map NonLocalDepEntry.BB := by
  obtain ⟨hlt, hget⟩ := List.getElem?_eq_some_iff.mp hk
  refine ⟨List.mem_set hlt _, fun x hx => List.mem_or_eq_of_mem_set hx, fun b hb => ?_⟩
  have hmap : ((c.entries P).set k ⟨e.BB, Dep⟩).map NonLocalDepEntry.BB = c.blocks P := by
    rw [List.map_set, Caches.blocks]
    refine List.ext_getElem? fun j => ?_
    rw [List.getElem?_set]
    split
    · rename_i hjk
      subst hjk
      simp [hlt, hget]
    · rfl
  rwa [hmap]

theorem scanForBlock_scans {m : ReverseMap InstPtr ValueIsLoadPair} {scanPos : Option InstId}
    {put : NonLocalDepEntry → List NonLocalDepEntry}
    (hres : Resumes (ptrScanner AA Loc isLoad) F BB none scanPos)
    (hput : ∀ Dep, ⟨BB, Dep⟩ ∈ put ⟨BB, Dep⟩ ∧
      (∀ e ∈ put ⟨BB, Dep⟩, e ∈ c.entries P ∨ e = ⟨BB, Dep⟩) ∧
      ∀ b ∈ c.blocks P, b ∈ (put ⟨BB, Dep⟩).map NonLocalDepEntry.BB) {Dep : FlowDepResult}
    (hr : scanForBlock F c m P Loc isLoad BB scanPos put = (Dep, c')) :
    ScansBlock F P Loc isLoad BB c c' Dep := by
  unfold scanForBlock at hr
  extract_lets Dep' m' at hr
  obtain ⟨rfl, rfl⟩ := Prod.mk.inj hr
  obtain ⟨hmem, hold, hblocks⟩ := hput Dep'
  have hentries : Caches.entries { c.setEntries P (put ⟨BB, Dep'⟩) with
      reverseNonLocalPtrDeps := m' } P = put ⟨BB, Dep'⟩ := Caches.entries_setEntries
  have hinfo : Caches.info { c.setEntries P (put ⟨BB, Dep'⟩) with reverseNonLocalPtrDeps := m' } P =
      { c.info P with nonLocalDeps := put ⟨BB, Dep'⟩ } := Caches.info_setInfo
  exact {
    notDirty := scan_ne_dirty (F.atBegin_isMarker BB) _ _
    agrees := hres.rescan False.elim
    mem := hentries ▸ hmem
    old := hentries ▸ hold
    blocks := by
      intro b hb
      rw [Caches.blocks, hentries]
      exact hblocks b hb
    pair := by rw [hinfo]
    recorded := fun Loc' => recordedFor_setInfo rfl rfl
    frame := fun P' hP' => Function.update_of_ne hP' .. }

/-- The lookup for a block, for the location of the record. -/
theorem getNonLocalInfoForBlock_scans (h : EntriesFaithful F c) (hP : P = (Loc.ptr, isLoad))
    (hloc : RecordedFor c P Loc) {n : Nat} {Dep : FlowDepResult}
    (hr : getNonLocalInfoForBlock F c P Loc isLoad BB n = .ok (Dep, c')) :
    ScansBlock F P Loc isLoad BB c c' Dep := by
  have hfaithful : ∀ e ∈ c.entries P,
      Faithful (ptrScanner AA Loc isLoad) F e.BB none False e.result := by
    subst hP
    exact fun e he => h.recorded hloc rfl he
  unfold getNonLocalInfoForBlock at hr
  dsimp only at hr
  split at hr
  next =>
    refine scanForBlock_scans (.inl rfl) (fun Dep => ⟨by simp, fun e he => ?_, fun b hb => ?_⟩)
      (Except.ok.inj hr)
    · simpa using he
    · rw [List.map_append]
      exact List.mem_append_left _ hb
  next k hfind =>
    obtain ⟨e, hk, rfl⟩ := findEntry_eq_some hfind
    have hk : (c.entries P)[k]? = some e := by
      rw [List.getElem?_take] at hk
      split at hk
      · exact hk
      · cases hk
    have he : e ∈ c.entries P := List.mem_of_getElem? hk
    have hset := entries_set_spec hk
    rw [hk, Option.map_some, Option.getD_some] at hr
    have hfe := hfaithful e he
    split at hr
    next hres =>
      exact scanForBlock_scans (.inl rfl) hset (Except.ok.inj hr)
    next i hres =>
      split at hr
      · cases hr
      · obtain ⟨m, _, hr⟩ := bind_eq_ok.mp hr
        rw [hres] at hfe
        exact scanForBlock_scans hfe hset (Except.ok.inj hr)
    next r hnone hsome =>
      cases hr
      have hdirty : e.result.isDirty = false := by
        cases hres : e.result with
        | dirty pos =>
          cases pos with
          | none => exact absurd hres hnone
          | some i => exact absurd hres (hsome i)
        | clobber i => rfl
        | defn i => rfl
        | other o => rfl
      exact {
        notDirty := hdirty
        agrees := hfe.agrees hdirty
        mem := he
        old := fun x hx => .inl hx
        blocks := fun b hb => hb
        pair := rfl
        recorded := fun _ hx => hx
        frame := fun _ _ => rfl }

theorem ScansBlock.faithful {Dep : FlowDepResult} (hs : ScansBlock F P Loc isLoad BB c c' Dep)
    (h : EntriesFaithful F c) (hP : P = (Loc.ptr, isLoad)) (hloc : RecordedFor c P Loc) :
    EntriesFaithful F c' := by
  intro P' e he
  by_cases hPP : P' = P
  · subst hPP hP
    rw [(hs.recorded Loc hloc).location rfl]
    rcases hs.old e he with hold | rfl
    · exact h.recorded hloc rfl hold
    · exact faithful_of_agrees hs.notDirty hs.agrees
  · have hfewer := fewer_of_eq (hs.frame P' hPP)
    rw [hfewer.location]
    exact h P' e (hfewer.entries e he)

/-! ## The record of a query -/

/-- How often the query will be started again before its record agrees with it. -/
def restarts (c : Caches) (P : ValueIsLoadPair) (loc : Location) : Nat :=
  (if loc.size < (c.info P).size then 1 else 0) + if loc.tbaaTag.isSome then 1 else 0

/-- What becomes of the record of `P` in a query for `loc`: it stays, or it is new or thrown out. -/
structure Reconciles (P : ValueIsLoadPair) (loc : Location) (c c' : Caches)
    (restart : Option Location) : Prop where
  frame : ∀ P', P' ≠ P → c'.nonLocalPointerDeps P' = c.nonLocalPointerDeps P'
  record : c'.nonLocalPointerDeps P = c.nonLocalPointerDeps P ∨
    (c'.info P).pair = none ∧ c'.entries P = [] ∧
      (c.nonLocalPointerDeps P = none ∨ (c.info P).ClearedBy loc)
  agrees : restart = none → RecordedFor c' P loc
  again : ∀ loc', restart = some loc' →
    loc'.ptr = loc.ptr ∧ loc.Wider loc' ∧ restarts c' P loc' < restarts c P loc

theorem clearInfo_record {info : NonLocalPointerInfo} (h : clearInfo c P info = .ok c') :
    c'.nonLocalPointerDeps P = some { info with pair := none, nonLocalDeps := [] } ∧
      ∀ P', P' ≠ P → c'.nonLocalPointerDeps P' = c.nonLocalPointerDeps P' := by
  obtain ⟨m, _, h⟩ := bind_eq_ok.mp h
  cases h
  exact ⟨by simp [Caches.setInfo], fun P' hP' => Function.update_of_ne hP' ..⟩

theorem Caches.info_of_some {info : NonLocalPointerInfo}
    (h : c.nonLocalPointerDeps P = some info) : c.info P = info := by
  simp only [Caches.info, h, Option.getD_some]

theorem reconcileTBAATag_reconciles {info : NonLocalPointerInfo} {restart : Option Location}
    (hinfo : c.nonLocalPointerDeps P = some info) (hsize : info.size = Loc.size)
    (hr : reconcileTBAATag c P Loc = .ok (c', restart)) : Reconciles P Loc c c' restart := by
  have hget := Caches.info_of_some hinfo
  unfold reconcileTBAATag at hr
  simp only [hget] at hr
  split at hr
  next htag =>
    -- the record has no tag any more
    have hrecord : (∃ info', c'.nonLocalPointerDeps P = some info' ∧ info'.size = Loc.size ∧
        info'.tbaaTag = none ∧ (info' = info ∨ info'.pair = none ∧ info'.nonLocalDeps = [] ∧
          info.tbaaTag.isSome) ∧
        ∀ P', P' ≠ P → c'.nonLocalPointerDeps P' = c.nonLocalPointerDeps P') ∧
        restart = if Loc.tbaaTag.isSome then some { Loc with tbaaTag := none } else none := by
      split at hr
      next hsome =>
        obtain ⟨c1, hc1, hr⟩ := bind_eq_ok.mp hr
        cases hr
        obtain ⟨hP, hframe⟩ := clearInfo_record hc1
        exact ⟨⟨_, hP, hsize, rfl, .inr ⟨rfl, rfl, hsome⟩, hframe⟩, rfl⟩
      next hnone =>
        cases hr
        exact ⟨⟨info, hinfo, hsize, by simpa using hnone, .inl rfl, fun _ _ => rfl⟩, rfl⟩
    obtain ⟨⟨info', hinfo', hsize', htag', hcase, hframe⟩, rfl⟩ := hrecord
    have hget' := Caches.info_of_some hinfo'
    refine ⟨hframe, ?_, fun hrestart => ⟨info', hinfo', hsize', ?_⟩, fun loc' hrestart => ?_⟩
    · rcases hcase with rfl | ⟨hpair, hnil, hsome⟩
      · exact .inl (hinfo'.trans hinfo.symm)
      · refine .inr ⟨by rw [hget', hpair], by rw [Caches.entries, hget', hnil], .inr ?_⟩
        rw [hget]
        exact .inr ⟨hsize, htag, hsome⟩
    · rw [htag']
      cases hL : Loc.tbaaTag with
      | none => rfl
      | some t => simp [hL] at hrestart
    · split at hrestart
      next hsome =>
        obtain rfl := Option.some.inj hrestart
        refine ⟨rfl, ⟨Nat.le_refl _, .inr rfl⟩, ?_⟩
        simp [restarts, hget', hsize', hsome]
      next => cases hrestart
  next htag =>
    cases hr
    refine ⟨fun _ _ => rfl, .inl rfl, fun _ => ⟨info, hinfo, hsize, ?_⟩, fun loc' hx => by cases hx⟩
    simpa using htag

theorem reconcile_reconciles {restart : Option Location}
    (hr : reconcile c P Loc = .ok (c', restart)) : Reconciles P Loc c c' restart := by
  unfold reconcile at hr
  split at hr
  next hnone =>
    cases hr
    refine ⟨fun P' hP' => Function.update_of_ne hP' .., .inr ⟨?_, ?_, .inl hnone⟩,
      fun _ => ⟨_, Function.update_self .., rfl, rfl⟩, fun loc' hx => by cases hx⟩
    · rw [Caches.info_setInfo]
    · rw [Caches.entries_setInfo]
  next info hinfo =>
    have hget := Caches.info_of_some hinfo
    split at hr
    next hlt =>
      -- the data is thrown out, and then the tags are compared
      obtain ⟨c1, hc1, hr⟩ := bind_eq_ok.mp hr
      obtain ⟨hP1, hframe1⟩ := clearInfo_record hc1
      have htags := reconcileTBAATag_reconciles hP1 rfl hr
      refine ⟨fun P' hP' => (htags.frame P' hP').trans (hframe1 P' hP'), .inr ?_, htags.agrees,
        fun loc' hrestart => ?_⟩
      · have hclear : c.nonLocalPointerDeps P = none ∨ (c.info P).ClearedBy Loc := by
          rw [hget]
          exact .inr (.inl hlt)
        rcases htags.record with hsame | ⟨hpair, hnil, _⟩
        · have hget' := Caches.info_of_some (hsame.trans hP1)
          exact ⟨by rw [hget'], by rw [Caches.entries, hget'], hclear⟩
        · exact ⟨hpair, hnil, hclear⟩
      · obtain ⟨hptr, hwider, hless⟩ := htags.again loc' hrestart
        refine ⟨hptr, hwider, Nat.lt_of_lt_of_le hless ?_⟩
        simp [restarts, Caches.info_of_some hP1]
    next hlt =>
      split at hr
      next hgt =>
        obtain ⟨rfl, rfl⟩ := Prod.mk.inj (Except.ok.inj hr)
        refine ⟨fun _ _ => rfl, .inl rfl, fun hx => (by cases hx), fun loc' hrestart => ?_⟩
        obtain rfl := Option.some.inj hrestart
        refine ⟨rfl, ⟨Nat.le_of_lt hgt, .inl rfl⟩, ?_⟩
        simp only [restarts, hget, Nat.lt_irrefl, if_false, if_pos hgt]
        omega
      next hgt => exact reconcileTBAATag_reconciles hinfo (by omega) hr

theorem Reconciles.fewer {restart : Option Location} (h : Reconciles P Loc c c' restart)
    (P' : ValueIsLoadPair) : c'.entries P' = [] ∨ Fewer c c' P' := by
  by_cases hPP : P' = P
  · subst hPP
    rcases h.record with hsame | ⟨_, hnil, _⟩
    · exact .inr (fewer_of_eq hsame)
    · exact .inl hnil
  · exact .inr (fewer_of_eq (h.frame P' hPP))

end Entries

/-! ## Records thrown out or made dirty -/

section Removal

variable {S : FiniteSetting} {F F' : Function S.AA} {c c' : Caches} {P : ValueIsLoadPair}
  {R : InstId}

theorem removeCached_fewer
    (h : removeCachedNonLocalPointerDependencies F c P = .ok c') (P' : ValueIsLoadPair) :
    c'.nonLocalPointerDeps P' = none ∨ c'.nonLocalPointerDeps P' = c.nonLocalPointerDeps P' := by
  obtain ⟨hP, hframe⟩ := removeCached_key h
  by_cases hPP : P' = P
  · exact .inl (hPP ▸ hP)
  · exact .inr (hframe P' hPP)

theorem invalidate_fewer {Ptr : Value} (h : invalidateCachedPointerInfo F c Ptr = .ok c')
    (P : ValueIsLoadPair) :
    c'.nonLocalPointerDeps P = none ∨ c'.nonLocalPointerDeps P = c.nonLocalPointerDeps P := by
  unfold invalidateCachedPointerInfo at h
  split at h
  · obtain ⟨c1, h1, h2⟩ := bind_eq_ok.mp h
    rcases removeCached_fewer h2 P with hnone | hsame
    · exact .inl hnone
    · rw [hsame]
      exact removeCached_fewer h1 P
  · cases h
    exact .inr rfl

/-- The record of a pointer after its entries that name `R` have been made dirty. -/
def NonLocalPointerInfo.dirtied {AA : AliasAnalysis} (F : Function AA) (R : InstId)
    (info : NonLocalPointerInfo) :
    NonLocalPointerInfo :=
  { info with pair := none, nonLocalDeps := FlowDep.dirtied F R info.nonLocalDeps }

/-- The pointers with an entry that names `R` are made dirty, and the others are left alone. -/
theorem dirtyPtrDeps_record
    (h : c.reverseNonLocalPtrDeps.Represents fun P p => EntryNames (c.entries P) p) :
    (¬ EntryNames (c.entries P) (.inst R) →
      (dirtyPtrDeps F c R).nonLocalPointerDeps P = c.nonLocalPointerDeps P) ∧
    (EntryNames (c.entries P) (.inst R) →
      (dirtyPtrDeps F c R).info P = (c.info P).dirtied F R) := by
  refine ⟨fun hnot => dirtyPtrDeps_key (by rwa [h.mem_iff]), fun hnames => ?_⟩
  unfold dirtyPtrDeps
  cases hrev : c.reverseNonLocalPtrDeps (.inst R) with
  | none => exact absurd hnames (h.not_of_none hrev)
  | some Set =>
    have hP : P ∈ Set := (h.mem_set_iff hrev).mpr hnames
    have hnd : Set.Nodup := (h.tidy _ _ hrev).2
    have hinv : (Set.foldl (dirtyPtrDep F R) (c, [])).1.info P =
        if P ∈ Set then (c.info P).dirtied F R else c.info P := by
      refine foldl_invariant (P := fun done (t : Caches × List (InstPtr × ValueIsLoadPair)) =>
        t.1.info P = if P ∈ done then (c.info P).dirtied F R else c.info P) (by simp)
        fun done Q post t hsplit ht => ?_
      rw [hsplit, List.nodup_middle, List.nodup_cons] at hnd
      by_cases hQ : P = Q
      · subst hQ
        have hnot : P ∉ done := fun hx => hnd.1 (List.mem_append_left _ hx)
        rw [if_neg hnot] at ht
        rw [if_pos (by simp)]
        simp [dirtyPtrDep, Caches.setPair, Caches.setEntries, NonLocalPointerInfo.dirtied, ht,
          Caches.entries, FlowDep.dirtied]
      · have hframe : (dirtyPtrDep F R t Q).1.info P = t.1.info P := by
          simp only [dirtyPtrDep, Caches.setPair, Caches.setEntries, Caches.info_setInfo_of_ne hQ]
        rw [hframe, ht]
        simp [hQ]
    rw [if_pos hP] at hinv
    exact hinv

theorem mem_dirtied {es : List NonLocalDepEntry} {e : NonLocalDepEntry} :
    e ∈ FlowDep.dirtied F R es ↔ ∃ e0 ∈ es, e.BB = e0.BB ∧
      e.result = if e0.result.Names R then newDirtyVal F R else e0.result := by
  rw [(perm_dirtied es).mem_iff, List.mem_map]
  refine exists_congr fun e0 => and_congr_right fun _ => ?_
  by_cases hR : e0.result.Names R
  · rw [dirtyEntry_of_names hR, if_pos hR]
    refine ⟨fun hx => by rw [← hx]; exact ⟨rfl, rfl⟩, fun hx => ?_⟩
    cases e
    simpa [eq_comm] using hx
  · rw [dirtyEntry_of_not_names hR, if_neg hR]
    refine ⟨fun hx => by rw [← hx]; exact ⟨rfl, rfl⟩, fun hx => ?_⟩
    cases e
    cases e0
    simpa [eq_comm] using hx

/-- With the entries that name `R` dirty, the entries are faithful to the function without `R`. -/
theorem dirtyPtrDeps_faithful (h : EntriesFaithful F c) (hF : F.Removes F' R)
    (hptrs : c.reverseNonLocalPtrDeps.Represents fun P p => EntryNames (c.entries P) p) :
    EntriesFaithful F' (dirtyPtrDeps F c R) := by
  intro P e he
  obtain ⟨hkeep, hdirty⟩ := dirtyPtrDeps_record (F := F) (R := R) (P := P) hptrs
  have hremoves : ∀ e0 ∈ c.entries P, Faithful (ptrScanner S.AA ((c.info P).location P) P.2) F'
      e0.BB none False (if e0.result.Names R then newDirtyVal F R else e0.result) := fun e0 he0 =>
    (h P e0 he0).removes hF (by simp) (by simp)
  by_cases hnames : EntryNames (c.entries P) (.inst R)
  · have hinfo := hdirty hnames
    have hloc : ((dirtyPtrDeps F c R).info P).location P = (c.info P).location P := by
      rw [hinfo]
      rfl
    rw [Caches.entries, hinfo] at he
    obtain ⟨e0, he0, hBB, hres⟩ := mem_dirtied.mp he
    rw [hloc, hBB, hres]
    exact hremoves e0 he0
  · have hinfo : (dirtyPtrDeps F c R).info P = c.info P := by
      simp only [Caches.info, hkeep hnames]
    rw [Caches.entries, hinfo] at he
    rw [hinfo]
    have hnot : ¬ e.result.Names R := fun hx => hnames ⟨e, he, R, rfl, hx⟩
    have := hremoves e he
    rwa [if_neg hnot] at this

/-- The caches before the pointers with entries that name the removed instruction are made dirty. -/
theorem removeInstruction_before (h : Consistent F c) (hr : removeInstruction F c R = .ok c') :
    ∃ c3, Consistent F c3 ∧ c' = dirtyPtrDeps F c3 R ∧ ∀ P,
      c3.nonLocalPointerDeps P = none ∨ c3.nonLocalPointerDeps P = c.nonLocalPointerDeps P := by
  obtain ⟨c1, hc1, h1, hnone1, hinfo1⟩ := removeLocalDep_spec (R := R) h
  obtain ⟨c1', hc1', hr⟩ := bind_eq_ok.mp hr
  rw [hc1] at hc1'
  cases hc1'
  obtain ⟨c2, hc2, hr⟩ := bind_eq_ok.mp hr
  obtain ⟨hok, hfail⟩ := invalidateCachedPointerInfo_spec h1 (.inst R)
  obtain ⟨c2', hc2', h2⟩ := hok (hfail c2 hc2)
  rw [hc2] at hc2'
  cases hc2'
  obtain ⟨c3, hc3, h3, _, hinfo3, _⟩ :=
    dirtyLocalDeps_spec h2.consistent (h2.localDeps ▸ hnone1)
  obtain ⟨c3', hc3', hr⟩ := bind_eq_ok.mp hr
  rw [hc3] at hc3'
  cases hc3'
  cases hr
  refine ⟨c3, h3, rfl, fun P => ?_⟩
  rw [hinfo3, ← hinfo1]
  exact invalidate_fewer hc2 P

/-- A removal keeps the entries faithful, to the function without the instruction. -/
theorem removeInstruction_faithful (h : EntriesFaithful F c) (hc : Consistent F c)
    (hF : F.Removes F' R) (hr : removeInstruction F c R = .ok c') : EntriesFaithful F' c' := by
  obtain ⟨c3, h3, rfl, hinfo⟩ := removeInstruction_before hc hr
  refine dirtyPtrDeps_faithful (h.fewer fun P => ?_) hF h3.ptrs
  rcases hinfo P with hnone | hsame
  · exact .inl (Caches.entries_of_none hnone)
  · exact .inr (fewer_of_eq hsame)

/-- After a removal a record is what it was, or no query is complete any more. -/
theorem removeInstruction_records (h : Consistent F c) (hr : removeInstruction F c R = .ok c')
    (P : ValueIsLoadPair) : (c'.info P).pair = none ∨ c'.info P = c.info P := by
  obtain ⟨c3, h3, rfl, hinfo⟩ := removeInstruction_before h hr
  obtain ⟨hkeep, hdirty⟩ := dirtyPtrDeps_record (F := F) (R := R) (P := P) h3.ptrs
  by_cases hnames : EntryNames (c3.entries P) (.inst R)
  · rw [hdirty hnames]
    exact .inl rfl
  · simp only [Caches.info, hkeep hnames]
    rcases hinfo P with hnone | hsame
    · rw [hnone]
      exact .inl rfl
    · rw [hsame]
      exact .inr rfl

end Removal

end FlowDep
end DepTaint
