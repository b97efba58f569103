import DepTaint.CacheEntries

/-!
# CacheRemoval

`removeInstruction` takes every trace of an instruction out of the caches: a result that names it is
replaced by a dirty one that names the next instruction, or none after a terminator.

* `removeInstruction_spec`: it succeeds exactly when the entries of the instruction, as a pointer,
  hold no constant of `OtherType`; the caches are then consistent with the function without it.
-/

namespace DepTaint
namespace FlowDep

variable {AA : AliasAnalysis} {F : Function AA} {c : Caches} {R : InstId}

/-! ## The next instruction -/

theorem sublist_pair_iff {l : List InstId} (hnd : l.Nodup) {pre post : List InstId}
    (hl : l = pre ++ R :: post) {Q : InstId} : [R, Q].Sublist l ↔ Q ∈ post := by
  subst hl
  constructor
  · intro h
    induction pre with
    | nil =>
      cases h with
      | cons _ h => exact absurd (h.subset (List.mem_cons_self ..)) (List.nodup_cons.mp hnd).1
      | cons_cons _ h => exact h.subset (List.mem_cons_self ..)
    | cons x pre ih =>
      obtain ⟨hx, hnd⟩ := List.nodup_cons.mp hnd
      cases h with
      | cons _ h => exact ih hnd h
      | cons_cons _ h => exact absurd (by simp) hx
  · intro h
    exact ((List.singleton_sublist.mpr h).cons_cons R).trans (List.sublist_append_right _ _)

/-- The instruction after `R` in its block. -/
theorem next_eq {b : BlockId} {pre post : List InstId} (hb : F.insts b = pre ++ R :: post) :
    F.next R = post.head? := by
  have hR : R ∈ F.insts b := by simp [hb]
  have hnd := F.nodup b
  rw [hb, List.nodup_middle, List.nodup_cons] at hnd
  have hpre : ∀ x ∈ pre, decide (x ≠ R) = true := by
    intro x hx
    have : x ≠ R := by
      rintro rfl
      exact hnd.1 (List.mem_append_left _ hx)
    simpa using this
  rw [Function.next, (F.getParent_iff R b).mpr hR, Option.bind_some, hb,
    List.dropWhile_append_of_pos hpre, List.dropWhile_cons_of_neg (by simp), List.tail_cons]

theorem newDirtyVal_isMarker : (newDirtyVal F R).isMarker = false := rfl

/-- The new dirty result names no instruction but the one after `R`. -/
theorem mem_of_newDirtyVal_names {b : BlockId} (hR : R ∈ F.insts b) {i : InstId}
    (h : (newDirtyVal F R).Names i) : i ∈ F.insts b ∧ i ≠ R := by
  obtain ⟨pre, post, hb⟩ := List.append_of_mem hR
  have hi : F.next R = some i := by
    simp only [FlowDepResult.Names, newDirtyVal, FlowDepResult.dirty.injEq, reduceCtorEq,
      or_false] at h
    split at h
    · cases h
    · exact h
  rw [next_eq hb] at hi
  have hmem := List.mem_of_head? hi
  have hnd := F.nodup b
  rw [hb, List.nodup_middle, List.nodup_cons] at hnd
  refine ⟨by simp [hb, hmem], ?_⟩
  rintro rfl
  exact hnd.1 (List.mem_append_right _ hmem)

/-- Before an instruction that comes after `R`, or at it, stands the one that the new dirty result
names. -/
theorem newDirtyVal_of_before {b : BlockId} {Q : InstId} (h : [R, Q].Sublist (F.insts b)) :
    ∃ J, newDirtyVal F R = .dirty (some J) ∧ (J = Q ∨ [J, Q].Sublist (F.insts b)) := by
  have hR : R ∈ F.insts b := h.subset (List.mem_cons_self ..)
  obtain ⟨pre, post, hb⟩ := List.append_of_mem hR
  have hQ := (sublist_pair_iff (F.nodup b) hb).mp h
  cases post with
  | nil => cases hQ
  | cons J post =>
    have hterm : (AA.inst R).isTerminator = false := by
      have := F.terminated b pre R _ hb
      simpa using this
    refine ⟨J, by simp [newDirtyVal, hterm, next_eq hb], ?_⟩
    rcases List.mem_cons.mp hQ with rfl | hQ
    · exact .inl rfl
    · refine .inr ?_
      rw [hb]
      exact (((List.singleton_sublist.mpr hQ).cons_cons J).cons R).trans
        (List.sublist_append_right _ _)

/-! ## Local results -/

theorem removeLocalDep_spec (h : Consistent F c) :
    ∃ c', removeLocalDep c R = .ok c' ∧ Consistent F c' ∧ c'.localDeps R = none ∧
      c'.nonLocalPointerDeps = c.nonLocalPointerDeps := by
  unfold removeLocalDep
  cases hc : c.localDeps R with
  | none => exact ⟨c, rfl, h, hc, rfl⟩
  | some r =>
    obtain ⟨i, hi, _⟩ := h.local_ok R r hc
    have hget := FlowDepResult.getInst_eq_inst_iff.mpr hi
    obtain ⟨m, hrem, hm⟩ := h.locals.remove (t := .inst i) (k := R) ⟨r, hc, i, rfl, hi⟩
    refine ⟨{ c with
      localDeps := Function.update c.localDeps R none, reverseLocalDeps := m }, ?_, ?_, ?_, rfl⟩
    · simp only [hget, removeFromReverseMap_ok hrem]
      rfl
    · refine h.of_locals rfl rfl (hm.congr fun Q p => ?_) fun Q r' hr' => ?_
      · by_cases hQ : Q = R
        · subst hQ
          simp only [Function.update_self, reduceCtorEq, false_and, exists_false, iff_false]
          intro ⟨⟨r', hr', hp⟩, hne⟩
          rw [hc] at hr'
          cases hr'
          have hp' := hp.getInst
          rw [hget] at hp'
          exact hne ⟨(Option.some.inj hp').symm, trivial⟩
        · simp [hQ]
      · by_cases hQ : Q = R
        · subst hQ
          simp at hr'
        · simp only [Function.update_of_ne hQ] at hr'
          exact h.local_ok Q r' hr'
    · simp

/-- The queries that depend on `R` become dirty from `J` on. -/
theorem dirtyLocalDeps_some {ReverseDeps : List InstId} {J : InstId}
    (hrev : c.reverseLocalDeps (.inst R) = some ReverseDeps) (hne : ReverseDeps ≠ [])
    (hR : R ∉ ReverseDeps) (hJ : newDirtyVal F R = .dirty (some J)) :
    dirtyLocalDeps F c R = .ok { c with
      localDeps := fun q => if q ∈ ReverseDeps then some (.dirty (some J)) else c.localDeps q
      reverseLocalDeps := (c.reverseLocalDeps.erase (.inst R)).insertAll
        (ReverseDeps.map fun q => (.inst J, q)).reverse } := by
  have hok : ¬ (ReverseDeps.isEmpty = true ∨ R ∈ ReverseDeps) := by
    rw [List.isEmpty_iff]
    exact fun hx => hx.elim hne hR
  simp only [dirtyLocalDeps, hrev, hJ, FlowDepResult.getInst, Option.map_some, if_neg hok]

theorem dirtyLocalDeps_spec (h : Consistent F c) (hnone : c.localDeps R = none) :
    ∃ c', dirtyLocalDeps F c R = .ok c' ∧ Consistent F c' ∧ c'.localDeps R = none ∧
      c'.nonLocalPointerDeps = c.nonLocalPointerDeps ∧
      ∀ Q r, c'.localDeps Q = some r → ¬ r.Names R := by
  cases hrev : c.reverseLocalDeps (.inst R) with
  | none =>
    refine ⟨c, by simp only [dirtyLocalDeps, hrev], h, hnone, rfl, fun Q r hr hi => ?_⟩
    exact h.locals.not_of_none hrev ⟨r, hr, R, rfl, hi⟩
  | some ReverseDeps =>
    have hmem : ∀ Q, Q ∈ ReverseDeps ↔ ∃ r, c.localDeps Q = some r ∧ r.Names R := by
      intro Q
      rw [h.locals.mem_set_iff hrev]
      simp only [FlowDepResult.namesPtr_inst]
    have hRnot : R ∉ ReverseDeps := by
      rw [hmem, hnone]
      simp
    -- every dependent query stands after `R` in its block
    have hbefore : ∀ Q ∈ ReverseDeps, ∃ b, [R, Q].Sublist (F.insts b) := by
      intro Q hQ
      obtain ⟨r, hr, hi⟩ := (hmem Q).mp hQ
      obtain ⟨i, hi', hpos⟩ := h.local_ok Q r hr
      obtain rfl := hi.unique hi'
      rcases hpos with hpos | ⟨hRQ, _⟩
      · exact hpos
      · exact absurd (hRQ ▸ hQ) hRnot
    have hne := (h.locals.tidy _ _ hrev).1
    obtain ⟨Q0, hQ0⟩ := List.exists_mem_of_ne_nil _ hne
    obtain ⟨b, hb⟩ := hbefore Q0 hQ0
    obtain ⟨J, hJ, _⟩ := newDirtyVal_of_before hb
    have hJR : J ≠ R :=
      (mem_of_newDirtyVal_names (hb.subset (List.mem_cons_self ..)) (.inl hJ)).2
    refine ⟨_, dirtyLocalDeps_some hrev hne hRnot hJ,
      h.of_locals rfl rfl ?_ fun Q r hr => ?_, ?_, rfl, fun Q r hr => ?_⟩
    · refine ((h.locals.erase (t := .inst R)).insertAll _).congr fun Q p => ?_
      simp only [List.mem_reverse, List.mem_map, Prod.mk.injEq]
      by_cases hQ : Q ∈ ReverseDeps
      · obtain ⟨r, hr, hi⟩ := (hmem Q).mp hQ
        simp only [if_pos hQ, Option.some.injEq, exists_eq_left', hr]
        constructor
        · intro hx
          rcases hx with ⟨⟨j, rfl, hj⟩, hne⟩ | ⟨_, _, rfl, _⟩
          · exact absurd (by rw [hi.unique hj]) hne
          · exact ⟨J, rfl, .inl rfl⟩
        · intro hx
          obtain ⟨j, hp, hj⟩ := hx
          refine .inr ⟨Q, hQ, ?_, rfl⟩
          rw [hp, hj.unique (.inl rfl)]
      · simp only [if_neg hQ]
        constructor
        · intro hx
          rcases hx with hx | ⟨Q', hQ', _, rfl⟩
          · exact hx.1
          · exact absurd hQ' hQ
        · intro hx
          refine .inl ⟨hx, ?_⟩
          rintro rfl
          exact hQ ((h.locals.mem_set_iff hrev).mpr hx)
    · by_cases hQ : Q ∈ ReverseDeps
      · simp only [if_pos hQ, Option.some.injEq] at hr
        subst hr
        obtain ⟨b, hb⟩ := hbefore Q hQ
        obtain ⟨J', hJ', hpos⟩ := newDirtyVal_of_before hb
        rw [hJ] at hJ'
        cases hJ'
        refine ⟨J, .inl rfl, ?_⟩
        rcases hpos with rfl | hpos
        · exact .inr ⟨rfl, rfl, Function.hasInst_of_mem (hb.subset (by simp))⟩
        · exact .inl ⟨b, hpos⟩
      · simp only [if_neg hQ] at hr
        exact h.local_ok Q r hr
    · simp [hRnot, hnone]
    · intro hi
      by_cases hQ : Q ∈ ReverseDeps
      · simp only [if_pos hQ, Option.some.injEq] at hr
        subst hr
        exact hJR (hi.unique (.inl rfl)).symm
      · simp only [if_neg hQ] at hr
        exact hQ ((hmem Q).mpr ⟨r, hr, hi⟩)

/-! ## Entries of pointers -/

theorem dirtyEntry_BB (e : NonLocalDepEntry) : (dirtyEntry F R e).BB = e.BB := by
  unfold dirtyEntry
  split <;> rfl

theorem dirtyEntry_of_names {e : NonLocalDepEntry} (h : e.result.Names R) :
    dirtyEntry F R e = ⟨e.BB, newDirtyVal F R⟩ := by
  rw [dirtyEntry, if_pos (FlowDepResult.getInst_eq_inst_iff.mpr h)]

theorem dirtyEntry_of_not_names {e : NonLocalDepEntry} (h : ¬ e.result.Names R) :
    dirtyEntry F R e = e := by
  rw [dirtyEntry, if_neg (mt FlowDepResult.getInst_eq_inst_iff.mp h)]

/-- The entries after the removal name what they named, but for `R`, and the next instruction if
they named `R`. -/
theorem entryNames_map_dirtyEntry {es : List NonLocalDepEntry} {p : InstPtr} :
    EntryNames (es.map (dirtyEntry F R)) p ↔ (EntryNames es p ∧ p ≠ .inst R) ∨
      (EntryNames es (.inst R) ∧ (newDirtyVal F R).getInst = some p) := by
  rw [← FlowDepResult.namesPtr_iff newDirtyVal_isMarker]
  induction es with
  | nil => simp [entryNames_nil]
  | cons e es ih =>
    rw [List.map_cons, entryNames_cons, entryNames_cons, entryNames_cons, ih,
      FlowDepResult.namesPtr_inst]
    by_cases he : e.result.Names R
    · rw [dirtyEntry_of_names he]
      have hp : e.result.NamesPtr p → p = .inst R := by
        intro ⟨i, hpi, hi⟩
        rw [hpi, hi.unique he]
      constructor
      · intro h
        rcases h with h | h | h
        · exact .inr ⟨.inl he, h⟩
        · exact .inl ⟨.inr h.1, h.2⟩
        · exact .inr ⟨.inl he, h.2⟩
      · intro h
        rcases h with ⟨h | h, hne⟩ | h
        · exact absurd (hp h) hne
        · exact .inr (.inl ⟨h, hne⟩)
        · exact .inl h.2
    · rw [dirtyEntry_of_not_names he]
      have hp : e.result.NamesPtr p → p ≠ .inst R := by
        intro h hp
        exact he (FlowDepResult.namesPtr_inst.mp (hp ▸ h))
      constructor
      · intro h
        rcases h with h | h | h
        · exact .inl ⟨.inl h, hp h⟩
        · exact .inl ⟨.inr h.1, h.2⟩
        · exact .inr ⟨.inr h.1, h.2⟩
      · intro h
        rcases h with ⟨h | h, hne⟩ | ⟨h | h, hnew⟩
        · exact .inl h
        · exact .inr (.inl ⟨h, hne⟩)
        · exact absurd h he
        · exact .inr (.inr ⟨h, hnew⟩)

theorem entriesOk_map_dirtyEntry {es : List NonLocalDepEntry} (h : EntriesOk F es) :
    EntriesOk F (es.map (dirtyEntry F R)) where
  nodup := by
    rw [List.map_map]
    simpa only [Function.comp_def, dirtyEntry_BB] using h.nodup
  mem x hx i hi := by
    obtain ⟨e, he, rfl⟩ := List.mem_map.mp hx
    rw [dirtyEntry_BB]
    by_cases hR : e.result.Names R
    · rw [dirtyEntry_of_names hR] at hi
      exact (mem_of_newDirtyVal_names (h.mem e he R hR) hi).1
    · rw [dirtyEntry_of_not_names hR] at hi
      exact h.mem e he i hi

/-- The entries of `P` after the removal. -/
def dirtied (F : Function AA) (R : InstId) (es : List NonLocalDepEntry) : List NonLocalDepEntry :=
  (es.map (dirtyEntry F R)).insertionSort fun a b => a.BB ≤ b.BB

theorem perm_dirtied (es : List NonLocalDepEntry) :
    (dirtied F R es).Perm (es.map (dirtyEntry F R)) := List.perm_insertionSort _ _

/-- What the loop over the pointers that depend on `R` has done after the pointers `done`. -/
structure DirtyInv (F : Function AA) (R : InstId) (c : Caches) (done : List ValueIsLoadPair)
    (s : Caches × List (InstPtr × ValueIsLoadPair)) : Prop where
  localDeps : s.1.localDeps = c.localDeps
  reverseLocalDeps : s.1.reverseLocalDeps = c.reverseLocalDeps
  reverseNonLocalPtrDeps : s.1.reverseNonLocalPtrDeps = c.reverseNonLocalPtrDeps
  entries : ∀ P, s.1.entries P = if P ∈ done then dirtied F R (c.entries P) else c.entries P
  toAdd : ∀ p P, (p, P) ∈ s.2 ↔ P ∈ done ∧ (newDirtyVal F R).getInst = some p

theorem DirtyInv.step {done : List ValueIsLoadPair} {s : Caches × List (InstPtr × ValueIsLoadPair)}
    (h : DirtyInv F R c done s) {P : ValueIsLoadPair} (hP : P ∉ done)
    (hnames : EntryNames (c.entries P) (.inst R)) :
    DirtyInv F R c (done ++ [P]) (dirtyPtrDep F R s P) where
  localDeps := h.localDeps
  reverseLocalDeps := h.reverseLocalDeps
  reverseNonLocalPtrDeps := h.reverseNonLocalPtrDeps
  entries P' := by
    have hes : s.1.entries P = c.entries P := by rw [h.entries, if_neg hP]
    by_cases hPP : P' = P
    · subst hPP
      simp [dirtyPtrDep, hes, dirtied]
    · have hframe : (dirtyPtrDep F R s P).1.entries P' = s.1.entries P' := by
        rw [dirtyPtrDep, Caches.entries_setEntries_of_ne hPP, Caches.entries_setPair]
      rw [hframe, h.entries]
      simp [hPP]
  toAdd p P' := by
    have hes : s.1.entries P = c.entries P := by rw [h.entries, if_neg hP]
    obtain ⟨e, he, heR⟩ := hnames
    have hget : e.result.getInst = some (.inst R) := heR.getInst
    simp only [dirtyPtrDep, hes, List.mem_append, h.toAdd, List.mem_filterMap, List.mem_filter,
      List.mem_singleton, Option.map_eq_some_iff, Prod.mk.injEq, decide_eq_true_eq]
    constructor
    · intro hx
      rcases hx with ⟨hd, hp⟩ | ⟨_, _, J, hJ, rfl, rfl⟩
      · exact ⟨.inl hd, hp⟩
      · exact ⟨.inr rfl, hJ⟩
    · intro ⟨hd, hp⟩
      rcases hd with hd | rfl
      · exact .inl ⟨hd, hp⟩
      · exact .inr ⟨e, ⟨he, hget⟩, p, hp, rfl, rfl⟩

theorem dirtyPtrDeps_spec (h : Consistent F c) (hs : ∀ P, SortedBlocks (c.blocks P)) :
    Consistent F (dirtyPtrDeps F c R) ∧ (dirtyPtrDeps F c R).localDeps = c.localDeps ∧
      (∀ P, ¬ EntryNames ((dirtyPtrDeps F c R).entries P) (.inst R)) ∧
      ∀ P, SortedBlocks ((dirtyPtrDeps F c R).blocks P) := by
  unfold dirtyPtrDeps
  cases hrev : c.reverseNonLocalPtrDeps (.inst R) with
  | none => exact ⟨h, rfl, fun P => h.ptrs.not_of_none hrev, hs⟩
  | some Set =>
    have hset : ∀ P, P ∈ Set ↔ EntryNames (c.entries P) (.inst R) :=
      fun P => h.ptrs.mem_set_iff hrev
    have hnd : Set.Nodup := (h.ptrs.tidy _ _ hrev).2
    have hinv : DirtyInv F R c Set (Set.foldl (dirtyPtrDep F R) (c, [])) := by
      refine foldl_invariant (P := DirtyInv F R c) ⟨rfl, rfl, rfl, by simp, by simp⟩
        fun pre P post s hsplit hpre => hpre.step ?_ ((hset P).mp (by simp [hsplit]))
      rw [hsplit, List.nodup_middle, List.nodup_cons] at hnd
      exact fun hP => hnd.1 (List.mem_append_left _ hP)
    dsimp only
    generalize Set.foldl (dirtyPtrDep F R) (c, []) = s at hinv ⊢
    have hentries : ∀ P, Caches.entries { s.1 with reverseNonLocalPtrDeps :=
        (s.1.reverseNonLocalPtrDeps.erase (.inst R)).insertAll s.2.reverse } P =
        if P ∈ Set then dirtied F R (c.entries P) else c.entries P := hinv.entries
    have hnames : ∀ P p, EntryNames (if P ∈ Set then dirtied F R (c.entries P) else c.entries P) p ↔
        (EntryNames (c.entries P) p ∧ p ≠ .inst R) ∨
          (P ∈ Set ∧ (newDirtyVal F R).getInst = some p) := by
      intro P p
      split
      · rename_i hP
        rw [entryNames_perm (perm_dirtied _), entryNames_map_dirtyEntry, ← hset]
      · rename_i hP
        refine ⟨fun hp => .inl ⟨hp, ?_⟩, fun hp => hp.elim And.left fun hx => absurd hx.1 hP⟩
        rintro rfl
        exact hP ((hset P).mpr hp)
    refine ⟨h.of_ptrs hinv.localDeps hinv.reverseLocalDeps ?_ fun P => ?_, hinv.localDeps,
      fun P => ?_, fun P => ?_⟩
    · simp only [hinv.reverseNonLocalPtrDeps]
      refine ((h.ptrs.erase (t := .inst R)).insertAll _).congr fun P p => ?_
      rw [← hinv.reverseNonLocalPtrDeps, hentries, hnames, List.mem_reverse, hinv.toAdd]
    · rw [hentries]
      split
      · exact (entriesOk_map_dirtyEntry (h.entries_ok P)).perm (perm_dirtied _)
      · exact h.entries_ok P
    · rw [hentries, hnames]
      intro hx
      rcases hx with ⟨_, hne⟩ | ⟨hP, hget⟩
      · exact hne rfl
      · obtain ⟨e, he, heR⟩ := (hset P).mp hP
        have hR := (h.entries_ok P).mem e he R (FlowDepResult.namesPtr_inst.mp heR)
        exact (mem_of_newDirtyVal_names hR (FlowDepResult.getInst_eq_inst_iff.mp hget)).2 rfl
    · rw [Caches.blocks, hentries]
      split
      · exact sortedBlocks_insertionSort _
      · exact hs P

/-! ## removeInstruction -/

/-- Caches that do not speak about `R` are consistent with the function without it. -/
theorem Consistent.keeps (h : Consistent F c) {F' : Function AA} (hF : F.Keeps F' R)
    (hnone : c.localDeps R = none) (hlocal : ∀ Q r, c.localDeps Q = some r → ¬ r.Names R)
    (hptr : ∀ P, ¬ EntryNames (c.entries P) (.inst R)) : Consistent F' c where
  locals := h.locals
  local_ok Q r hr := by
    have hkeep : ∀ (b : BlockId) (l : List InstId), l.Sublist (F.insts b) → (∀ x ∈ l, x ≠ R) →
        l.Sublist (F'.insts b) := by
      intro b l hl hx
      have hfilter := hl.filter (· ≠ R)
      rw [List.filter_eq_self.mpr (by simpa using hx)] at hfilter
      exact hfilter.trans (hF b)
    have hQ : Q ≠ R := by
      rintro rfl
      rw [hnone] at hr
      cases hr
    obtain ⟨i, hi, hpos⟩ := h.local_ok Q r hr
    have hiR : i ≠ R := by
      rintro rfl
      exact hlocal Q r hr hi
    refine ⟨i, hi, ?_⟩
    rcases hpos with ⟨b, hb⟩ | ⟨hiQ, hdirty, hmem⟩
    · exact .inl ⟨b, hkeep b _ hb (by simp [hiR, hQ])⟩
    · obtain ⟨b, hb⟩ := Option.isSome_iff_exists.mp hmem
      have hsub := hkeep b [Q] (List.singleton_sublist.mpr ((F.getParent_iff Q b).mp hb))
        (by simpa using hQ)
      exact .inr ⟨hiQ, hdirty, Function.hasInst_of_mem (hsub.subset (List.mem_singleton_self Q))⟩
  ptrs := h.ptrs
  entries_ok P := by
    refine ⟨(h.entries_ok P).nodup, fun e he i hi => (hF e.BB).subset ?_⟩
    refine List.mem_filter.mpr ⟨(h.entries_ok P).mem e he i hi, ?_⟩
    have hne : i ≠ R := by
      rintro rfl
      exact hptr P ⟨e, he, i, rfl, hi⟩
    simpa using hne

/-- The removal succeeds exactly when no entry of the instruction, as a pointer, is a constant. -/
theorem removeInstruction_spec (h : Consistent F c) (hs : ∀ P, SortedBlocks (c.blocks P)) :
    (NoMarkers AA c (.inst R) → ∃ c', removeInstruction F c R = .ok c' ∧
      (∀ F', F.Keeps F' R → Consistent F' c') ∧ ∀ P, SortedBlocks (c'.blocks P)) ∧
    ∀ c', removeInstruction F c R = .ok c' → NoMarkers AA c (.inst R) := by
  obtain ⟨c1, hc1, h1, hnone1, hinfo1⟩ := removeLocalDep_spec (R := R) h
  have hentries1 : ∀ P, c1.entries P = c.entries P := by
    intro P
    simp only [Caches.entries, Caches.info, hinfo1]
  have hmarkers : NoMarkers AA c1 (.inst R) ↔ NoMarkers AA c (.inst R) := by
    simp only [NoMarkers, NoMarker, hentries1]
  obtain ⟨hok, hfail⟩ := invalidateCachedPointerInfo_spec h1 (.inst R)
  constructor
  · intro hmarker
    obtain ⟨c2, hc2, h2⟩ := hok (hmarkers.mpr hmarker)
    obtain ⟨c3, hc3, h3, hnone3, hinfo3, hlocal3⟩ :=
      dirtyLocalDeps_spec h2.consistent (h2.localDeps ▸ hnone1)
    have hs3 : ∀ P, SortedBlocks (c3.blocks P) := by
      intro P
      have heq : c3.entries P = c2.entries P := by simp only [Caches.entries, Caches.info, hinfo3]
      rw [Caches.blocks, heq]
      rcases h2.entries P with hP | hP
      · rw [hP, hentries1]
        exact hs P
      · rw [hP]
        exact .nil
    obtain ⟨h4, hlocal4, hptr4, hs4⟩ := dirtyPtrDeps_spec (R := R) h3 hs3
    refine ⟨dirtyPtrDeps F c3 R, ?_, fun F' hF => h4.keeps hF ?_ ?_ hptr4, hs4⟩
    · simp only [removeInstruction, hc1, hc2, hc3, bind, Except.bind]
    · rw [hlocal4, hnone3]
    · rw [hlocal4]
      exact hlocal3
  · intro c' hc
    obtain ⟨c1', hc1', hc⟩ := bind_eq_ok.mp hc
    rw [hc1] at hc1'
    cases hc1'
    obtain ⟨c2, hc2, _⟩ := bind_eq_ok.mp hc
    exact hmarkers.mp (hfail c2 hc2)

end FlowDep
end DepTaint
