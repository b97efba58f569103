import DepTaint.CacheInverse

/-!
# CacheEntries

The cached entries of a pointer: how they are searched, sorted, scanned for and thrown out.

A list of entries is sorted by block up to the entries the running query has added. The binary
search looks at the sorted part only, so a block the query may ask for has no entry in the rest.

* `sortNonLocalDepInfoCache_spec`, `getNonLocalInfoForBlock_spec`: sorting and lookups keep the
  caches consistent.
* `clearInfo_spec`, `invalidateCachedPointerInfo_spec`: entries are thrown out exactly when none of
  them holds a constant of `OtherType`.
-/

namespace DepTaint
namespace FlowDep

/-- The blocks with an entry for `P`, in the order of the entries. -/
def Caches.blocks (c : Caches) (P : ValueIsLoadPair) : List BlockId :=
  (c.entries P).map NonLocalDepEntry.BB

abbrev SortedBlocks (bs : List BlockId) : Prop := bs.Pairwise (· ≤ ·)

/-! ## Searching and sorting -/

section Sorting

variable {es : List NonLocalDepEntry} {BB : BlockId} {n : Nat}

/-- The entry before the upper bound of a block that has one is for this block. -/
theorem getElem?_upperBound_pred (hs : SortedBlocks (es.map NonLocalDepEntry.BB))
    (h : BB ∈ es.map NonLocalDepEntry.BB) : upperBound es BB ≠ 0 ∧
      es[upperBound es BB - 1]?.map NonLocalDepEntry.BB = some BB := by
  obtain ⟨e, he, rfl⟩ := List.mem_map.mp h
  obtain ⟨pre, post, rfl⟩ := List.append_of_mem he
  rw [List.map_append, SortedBlocks, List.pairwise_append, List.map_cons,
    List.pairwise_cons] at hs
  obtain ⟨_, ⟨hpost, _⟩, hpre⟩ := hs
  have htake : (pre ++ e :: post).takeWhile (fun x => x.BB ≤ e.BB) =
      pre ++ e :: post.takeWhile fun x => x.BB ≤ e.BB := by
    rw [List.takeWhile_append_of_pos, List.takeWhile_cons_of_pos (by simp)]
    intro x hx
    simpa using hpre x.BB (List.mem_map_of_mem hx) e.BB (List.mem_cons_self ..)
  have hlast : ∃ x, (pre ++ e :: post.takeWhile fun x => x.BB ≤ e.BB).getLast? = some x ∧
      x ∈ e :: post.takeWhile fun x => x.BB ≤ e.BB := by
    refine ⟨(e :: post.takeWhile fun x => x.BB ≤ e.BB).getLast (List.cons_ne_nil _ _), ?_,
      List.getLast_mem _⟩
    rw [List.getLast?_append_of_ne_nil _ (List.cons_ne_nil _ _), List.getLast?_eq_getLast_of_ne_nil]
  obtain ⟨x, hx, hmem⟩ := hlast
  have hBB : x.BB = e.BB := by
    rcases List.mem_cons.mp hmem with rfl | hmem
    · rfl
    · have hle : x.BB ≤ e.BB := by simpa using List.mem_takeWhile_imp hmem
      have hge : e.BB ≤ x.BB :=
        hpost x.BB (List.mem_map_of_mem ((List.takeWhile_prefix _).subset hmem))
      exact Nat.le_antisymm hle hge
  have hpos : upperBound (pre ++ e :: post) e.BB ≠ 0 := by
    simp [upperBound, htake]
  have hget : (pre ++ e :: post)[upperBound (pre ++ e :: post) e.BB - 1]? = some x := by
    rw [List.getLast?_eq_getElem?, ← htake] at hx
    obtain ⟨rest, hrest⟩ :=
      List.takeWhile_prefix (l := pre ++ e :: post) fun x => decide (x.BB ≤ e.BB)
    rw [← hx, upperBound]
    conv_lhs =>
      enter [1]
      rw [← hrest]
    exact List.getElem?_append_left (by unfold upperBound at hpos; omega)
  exact ⟨hpos, by rw [hget, Option.map_some, hBB]⟩

theorem findEntry_eq_some {k : Nat} (h : findEntry es BB = some k) :
    ∃ e, es[k]? = some e ∧ e.BB = BB := by
  unfold findEntry at h
  extract_lets Entry Entry' at h
  split at h
  · rename_i hk
    rw [← Option.some.inj h]
    simpa using hk
  · cases h

theorem not_mem_of_findEntry_eq_none (hs : SortedBlocks (es.map NonLocalDepEntry.BB))
    (h : findEntry es BB = none) : BB ∉ es.map NonLocalDepEntry.BB := by
  intro hmem
  obtain ⟨hpos, hget⟩ := getElem?_upperBound_pred hs hmem
  simp [findEntry, hpos, hget] at h

theorem insertIdx_length_append {α : Type} (l l' : List α) (x : α) :
    (l ++ l').insertIdx l.length x = l ++ x :: l' := by
  induction l with
  | nil => rfl
  | cons y l ih => simp [ih]

/-- The entry goes behind those for blocks up to its own. -/
theorem insertIdx_upperBound (es : List NonLocalDepEntry) (e : NonLocalDepEntry) :
    es.insertIdx (upperBound es e.BB) e =
      (es.takeWhile fun x => x.BB ≤ e.BB) ++ e :: es.dropWhile fun x => x.BB ≤ e.BB := by
  have h := insertIdx_length_append (es.takeWhile fun x => x.BB ≤ e.BB)
    (es.dropWhile fun x => x.BB ≤ e.BB) e
  rwa [List.takeWhile_append_dropWhile] at h

theorem insertIdx_upperBound_append (es es' : List NonLocalDepEntry) (e : NonLocalDepEntry) :
    (es ++ es').insertIdx (upperBound es e.BB) e =
      es.insertIdx (upperBound es e.BB) e ++ es' := by
  have h := insertIdx_length_append (es.takeWhile fun x => x.BB ≤ e.BB)
    ((es.dropWhile fun x => x.BB ≤ e.BB) ++ es') e
  rw [← List.append_assoc, List.takeWhile_append_dropWhile] at h
  rw [insertIdx_upperBound, upperBound, h, List.append_assoc, List.cons_append]

/-- An entry inserted at the upper bound of its block keeps the entries sorted. -/
theorem sortedBlocks_insertIdx (hs : SortedBlocks (es.map NonLocalDepEntry.BB))
    (e : NonLocalDepEntry) :
    SortedBlocks ((es.insertIdx (upperBound es e.BB) e).map NonLocalDepEntry.BB) := by
  have hsplit : (es.takeWhile fun x => x.BB ≤ e.BB) ++ (es.dropWhile fun x => x.BB ≤ e.BB) = es :=
    List.takeWhile_append_dropWhile
  have hle : ∀ x ∈ es.takeWhile fun x => x.BB ≤ e.BB, x.BB ≤ e.BB := by
    intro x hx
    simpa using List.mem_takeWhile_imp hx
  have hge : ∀ x ∈ es.dropWhile fun x => x.BB ≤ e.BB, e.BB ≤ x.BB := by
    intro x hx
    rw [← hsplit, List.map_append, SortedBlocks, List.pairwise_append] at hs
    cases hd : es.dropWhile fun x => x.BB ≤ e.BB with
    | nil =>
      rw [hd] at hx
      cases hx
    | cons y d =>
      -- the first entry after the upper bound is for a later block
      have hy : e.BB < y.BB := by
        have := List.head?_dropWhile_not (fun x => decide (x.BB ≤ e.BB)) es
        rw [hd] at this
        simpa using this
      rw [hd] at hs hx
      rcases List.mem_cons.mp hx with rfl | hx
      · exact Nat.le_of_lt hy
      · have hyx := (List.pairwise_cons.mp hs.2.1).1 x.BB (List.mem_map_of_mem hx)
        exact Nat.le_trans (Nat.le_of_lt hy) hyx
  rw [insertIdx_upperBound, List.map_append, List.map_cons, SortedBlocks, List.pairwise_append,
    List.pairwise_cons]
  rw [← hsplit, List.map_append, SortedBlocks, List.pairwise_append] at hs
  refine ⟨hs.1, ⟨?_, hs.2.1⟩, ?_⟩
  · intro b hb
    obtain ⟨x, hx, rfl⟩ := List.mem_map.mp hb
    exact hge x hx
  · intro a ha b hb
    obtain ⟨x, hx, rfl⟩ := List.mem_map.mp ha
    rcases List.mem_cons.mp hb with rfl | hb
    · exact hle x hx
    · exact hs.2.2 _ (List.mem_map_of_mem hx) b hb

theorem perm_insertIdx_upperBound (es : List NonLocalDepEntry) (e : NonLocalDepEntry) :
    (es.insertIdx (upperBound es e.BB) e).Perm (es ++ [e]) := by
  refine (List.perm_insertIdx e es ?_).trans (List.perm_append_singleton e es).symm
  exact (List.takeWhile_prefix _).length_le

theorem sortedBlocks_insertionSort (es : List NonLocalDepEntry) :
    SortedBlocks ((es.insertionSort fun a b => a.BB ≤ b.BB).map NonLocalDepEntry.BB) := by
  have htotal : Std.Total fun x y : NonLocalDepEntry => x.BB ≤ y.BB :=
    ⟨fun x y => Nat.le_total x.BB y.BB⟩
  have htrans : IsTrans NonLocalDepEntry fun x y => x.BB ≤ y.BB :=
    ⟨fun _ _ _ h1 h2 => Nat.le_trans h1 h2⟩
  rw [SortedBlocks, List.pairwise_map]
  exact List.pairwise_insertionSort _ es

/-- Sorting keeps the entries and leaves them in the order of their blocks. -/
theorem sortNonLocalDepInfoCache_spec
    (hs : SortedBlocks ((es.take n).map NonLocalDepEntry.BB)) :
    (sortNonLocalDepInfoCache es n).Perm es ∧
      SortedBlocks ((sortNonLocalDepInfoCache es n).map NonLocalDepEntry.BB) := by
  have hsplit : es.take n ++ es.drop n = es := List.take_append_drop n es
  have hlen : (es.drop n).length = es.length - n := List.length_drop
  generalize hp : es.take n = p at hs hsplit
  unfold sortNonLocalDepInfoCache
  rw [← hlen]
  match hq : es.drop n with
  | [] =>
    rw [hq, List.append_nil] at hsplit
    rw [← hsplit]
    exact ⟨.refl _, hs⟩
  | [a] =>
    rw [hq] at hsplit
    rw [← hsplit]
    have hback : insertBack id (p ++ [a]) = p.insertIdx (upperBound p a.BB) a := by
      simp [insertBack]
    simp only [List.length_singleton, hback]
    exact ⟨perm_insertIdx_upperBound p a, sortedBlocks_insertIdx hs a⟩
  | [a, b] =>
    rw [hq] at hsplit
    rw [← hsplit]
    -- the last entry goes into the sorted part first, then the one before it
    have hback : insertBack List.dropLast (p ++ [a, b]) =
        p.insertIdx (upperBound p b.BB) b ++ [a] := by
      have hcons : p ++ [a, b] = (p ++ [a]) ++ [b] := by simp
      rw [hcons, insertBack, List.getLast?_append_of_ne_nil _ (List.cons_ne_nil _ _)]
      simp only [List.getLast?_singleton, List.dropLast_concat]
      exact insertIdx_upperBound_append p [a] b
    have hback' : insertBack id (p.insertIdx (upperBound p b.BB) b ++ [a]) =
        (p.insertIdx (upperBound p b.BB) b).insertIdx
          (upperBound (p.insertIdx (upperBound p b.BB) b) a.BB) a := by
      simp [insertBack]
    simp only [List.length_cons, List.length_nil, hback, hback']
    refine ⟨(perm_insertIdx_upperBound _ a).trans ?_,
      sortedBlocks_insertIdx (sortedBlocks_insertIdx hs b) a⟩
    have hperm := (perm_insertIdx_upperBound p b).append_right [a]
    refine hperm.trans ?_
    simpa using (List.Perm.swap a b []).append_left p
  | a :: b :: d :: q =>
    simp only [List.length_cons]
    exact ⟨List.perm_insertionSort _ es, sortedBlocks_insertionSort es⟩

end Sorting

/-! ## Entries -/

section Entries

variable {AA : AliasAnalysis} {F : Function AA} {pre post es es' : List NonLocalDepEntry}
  {e : NonLocalDepEntry} {p : InstPtr}

theorem entryNames_nil : ¬ EntryNames [] p := by simp [EntryNames]

theorem entryNames_append :
    EntryNames (es ++ es') p ↔ EntryNames es p ∨ EntryNames es' p := by
  simp only [EntryNames, List.mem_append, or_and_right, exists_or]

theorem entryNames_cons : EntryNames (e :: es) p ↔ e.result.NamesPtr p ∨ EntryNames es p := by
  simp [EntryNames]

theorem entryNames_middle : EntryNames (pre ++ e :: post) p ↔
    EntryNames (pre ++ post) p ∨ e.result.NamesPtr p := by
  simp only [entryNames_append, entryNames_cons]
  constructor
  · intro h
    rcases h with h | h | h
    · exact .inl (.inl h)
    · exact .inr h
    · exact .inl (.inr h)
  · intro h
    rcases h with (h | h) | h
    · exact .inl h
    · exact .inr (.inr h)
    · exact .inr (.inl h)

theorem entryNames_perm (h : es.Perm es') : EntryNames es p ↔ EntryNames es' p := by
  simp only [EntryNames, h.mem_iff]

theorem EntriesOk.nil : EntriesOk F [] where
  nodup := by simp
  mem := by simp

theorem EntriesOk.perm (h : EntriesOk F es) (hp : es'.Perm es) : EntriesOk F es' where
  nodup := (hp.map _).nodup_iff.mpr h.nodup
  mem e he := h.mem e (hp.mem_iff.mp he)

theorem EntriesOk.concat (h : EntriesOk F es) {BB : BlockId} {Dep : FlowDepResult}
    (hBB : BB ∉ es.map NonLocalDepEntry.BB) (hDep : ∀ i, Dep.Names i → i ∈ F.insts BB) :
    EntriesOk F (es ++ [⟨BB, Dep⟩]) where
  nodup := by
    rw [List.map_append, List.nodup_append]
    exact ⟨h.nodup, by simp, by simpa using fun x hx hb => hBB (List.mem_map.mpr ⟨x, hx, hb⟩)⟩
  mem e he := by
    rcases List.mem_append.mp he with he | he
    · exact h.mem e he
    · rw [List.mem_singleton.mp he]
      exact hDep

theorem EntriesOk.replace (h : EntriesOk F (pre ++ e :: post)) {Dep : FlowDepResult}
    (hDep : ∀ i, Dep.Names i → i ∈ F.insts e.BB) : EntriesOk F (pre ++ ⟨e.BB, Dep⟩ :: post) where
  nodup := by simpa using h.nodup
  mem x hx := by
    rcases List.mem_append.mp hx with hx | hx
    · exact h.mem x (by simp [hx])
    · rcases List.mem_cons.mp hx with rfl | hx
      · exact hDep
      · exact h.mem x (by simp [hx])

/-- An instruction is named by the entry of its block only. -/
theorem EntriesOk.eq_of_names (h : EntriesOk F es) {x : NonLocalDepEntry} {i : InstId} (hx : x ∈ es)
    (he : e ∈ es) (hxi : x.result.Names i) (hei : e.result.Names i) : x = e := by
  have hxb := (F.getParent_iff i x.BB).mpr (h.mem x hx i hxi)
  have heb := (F.getParent_iff i e.BB).mpr (h.mem e he i hei)
  rw [hxb] at heb
  exact List.inj_on_of_nodup_map h.nodup hx he (Option.some.inj heb)

/-- What the other entries name is what all name but the one. -/
theorem EntriesOk.entryNames_others (h : EntriesOk F (pre ++ e :: post)) :
    EntryNames (pre ++ post) p ↔ EntryNames (pre ++ e :: post) p ∧ ¬ e.result.NamesPtr p := by
  rw [entryNames_middle]
  refine ⟨fun hp => ⟨.inl hp, fun he => ?_⟩, fun hp => hp.1.resolve_right hp.2⟩
  obtain ⟨x, hx, i, rfl, hxi⟩ := hp
  have hmem : x ∈ pre ++ e :: post := by
    rcases List.mem_append.mp hx with hx | hx <;> simp [hx]
  have hxe := h.eq_of_names hmem (by simp) hxi (FlowDepResult.namesPtr_inst.mp he)
  subst hxe
  have hnd := List.Nodup.of_map _ h.nodup
  rw [List.nodup_middle, List.nodup_cons] at hnd
  exact hnd.1 hx

end Entries

/-! ## New entries of one pointer -/

section Rules

variable {AA : AliasAnalysis} {F : Function AA} {c c' : Caches} {P : ValueIsLoadPair}
  {es : List NonLocalDepEntry}

/-- The rule for an operation that leaves the entries of `P` as `es`. -/
theorem Consistent.of_entries (h : Consistent F c) (hl : c'.localDeps = c.localDeps)
    (hr : c'.reverseLocalDeps = c.reverseLocalDeps)
    (hframe : ∀ P', P' ≠ P → c'.entries P' = c.entries P') (hP : c'.entries P = es)
    (hok : EntriesOk F es)
    (hptrs : c'.reverseNonLocalPtrDeps.Represents fun P' p =>
      if P' = P then EntryNames es p else EntryNames (c.entries P') p) : Consistent F c' := by
  refine h.of_ptrs hl hr (hptrs.congr fun P' p => ?_) fun P' => ?_
  · by_cases hPP : P' = P
    · rw [if_pos hPP, hPP, hP]
    · rw [if_neg hPP, hframe P' hPP]
  · by_cases hPP : P' = P
    · rw [hPP, hP]
      exact hok
    · rw [hframe P' hPP]
      exact h.entries_ok P'

/-- The rule for new entries of one pointer that name what the old ones do. -/
theorem Consistent.setEntries (h : Consistent F c) (hok : EntriesOk F es)
    (hnames : ∀ p, EntryNames es p ↔ EntryNames (c.entries P) p) :
    Consistent F (c.setEntries P es) := by
  refine h.of_entries rfl rfl (fun P' hP' => Caches.entries_setEntries_of_ne hP')
    Caches.entries_setEntries hok (h.ptrs.congr fun P' p => ?_)
  split
  · rename_i hPP
    rw [hPP, hnames]
  · rfl

/-- The rule for an operation on what is stored beside the entries. -/
theorem Consistent.of_entries_eq (h : Consistent F c) (hl : c'.localDeps = c.localDeps)
    (hr : c'.reverseLocalDeps = c.reverseLocalDeps)
    (hptrs : c'.reverseNonLocalPtrDeps = c.reverseNonLocalPtrDeps)
    (hentries : ∀ P, c'.entries P = c.entries P) : Consistent F c' := by
  refine h.of_ptrs hl hr ?_ fun P => ?_
  · simpa only [hptrs, hentries] using h.ptrs
  · rw [hentries]
    exact h.entries_ok P

theorem Consistent.setPair (h : Consistent F c) (pair : Option (BlockId × Bool)) :
    Consistent F (c.setPair P pair) :=
  h.of_entries_eq rfl rfl rfl fun _ => Caches.entries_setPair

end Rules

/-! ## GetNonLocalInfoForBlock -/

section Block

variable {AA : AliasAnalysis} {F : Function AA} {c : Caches} {P : ValueIsLoadPair}
  {Loc : Location} {isLoad : Bool} {BB : BlockId} {n : Nat}

theorem mem_insts_of_mem_above {scanPos : Option InstId} {i : InstId}
    (h : i ∈ F.above BB scanPos) : i ∈ F.insts BB := by
  cases scanPos with
  | none => exact mem_above_none.mp h
  | some Q => exact (List.takeWhile_prefix _).subset (List.mem_reverse.mp h)

/-- A scan whose result joins the entries `rest`, once the reverse map holds what `rest` and the
other pointers name. -/
theorem scanForBlock_spec (h : Consistent F c) (hP : P = (Loc.ptr, isLoad))
    {m : ReverseMap InstPtr ValueIsLoadPair} (rest : List NonLocalDepEntry)
    (hm : m.Represents fun P' p =>
      if P' = P then EntryNames rest p else EntryNames (c.entries P') p)
    {scanPos : Option InstId} {put : NonLocalDepEntry → List NonLocalDepEntry}
    (hput : ∀ Dep : FlowDepResult, (∀ i, Dep.Names i → i ∈ F.insts BB) →
      EntriesOk F (put ⟨BB, Dep⟩) ∧
        ∀ p, EntryNames (put ⟨BB, Dep⟩) p ↔ EntryNames rest p ∨ Dep.NamesPtr p) :
    Consistent F (scanForBlock F c m P Loc isLoad BB scanPos put).2 := by
  have hin : DependsIn (F.above BB scanPos)
      (getPointerDependencyFrom F Loc isLoad scanPos BB none) :=
    getPointerDependencyFrom_dependsIn Loc isLoad none
  unfold scanForBlock
  generalize getPointerDependencyFrom F Loc isLoad scanPos BB none = Dep at hin ⊢
  have hDep : ∀ i, Dep.Names i → i ∈ F.insts BB := by
    intro i hi
    rcases hin with ⟨j, hj, hr⟩ | hmarker
    · rw [hi.unique (.inr hr)]
      exact mem_insts_of_mem_above hj
    · obtain ⟨o, rfl⟩ := FlowDepResult.isMarker_iff.mp hmarker
      simp [FlowDepResult.Names] at hi
  obtain ⟨hok, hnames⟩ := hput Dep hDep
  refine h.of_entries rfl rfl (fun P' hP' => Caches.entries_setEntries_of_ne hP')
    Caches.entries_setEntries hok ?_
  rcases hin with ⟨i, _, hr⟩ | hmarker
  · -- the new dependence is remembered
    have hdep : Dep.isDep = true := FlowDepResult.isDep_iff.mpr ⟨i, hr⟩
    have hget : Dep.getInst = some (.inst i) := FlowDepResult.getInst_eq_inst_iff.mpr (.inr hr)
    have hmk : Dep.isMarker = false := by rcases hr with rfl | rfl <;> rfl
    simp only [hdep, if_true, hget, ← hP]
    refine hm.insert.congr fun P' p => ?_
    by_cases hPP : P' = P
    · subst hPP
      simp [hnames, FlowDepResult.namesPtr_iff hmk, hget, eq_comm]
    · simp [hPP]
  · obtain ⟨o, rfl⟩ := FlowDepResult.isMarker_iff.mp hmarker
    refine hm.congr fun P' p => ?_
    by_cases hPP : P' = P
    · subst hPP
      simp [hnames, FlowDepResult.NamesPtr, FlowDepResult.Names]
    · simp [hPP]

theorem blocks_scanForBlock {m : ReverseMap InstPtr ValueIsLoadPair} {scanPos : Option InstId}
    {put : NonLocalDepEntry → List NonLocalDepEntry} {bs : List BlockId}
    (hput : ∀ Dep, (put ⟨BB, Dep⟩).map NonLocalDepEntry.BB = bs) :
    (scanForBlock F c m P Loc isLoad BB scanPos put).2.blocks P = bs := by
  have hentries : ∀ Dep, (c.setEntries P (put ⟨BB, Dep⟩)).blocks P = bs := by
    intro Dep
    rw [Caches.blocks, Caches.entries_setEntries, hput]
  exact hentries _

theorem entries_scanForBlock {m : ReverseMap InstPtr ValueIsLoadPair} {scanPos : Option InstId}
    {put : NonLocalDepEntry → List NonLocalDepEntry} {P' : ValueIsLoadPair} (hP' : P' ≠ P) :
    (scanForBlock F c m P Loc isLoad BB scanPos put).2.entries P' = c.entries P' :=
  Caches.entries_setEntries_of_ne hP'

/-- What a lookup for `BB` leaves in the caches: consistent caches with an entry for the block. -/
structure LooksUp (F : Function AA) (P : ValueIsLoadPair) (BB : BlockId) (c c' : Caches) :
    Prop where
  consistent : Consistent F c'
  blocks : c'.blocks P = c.blocks P ∧ BB ∈ c.blocks P ∨ c'.blocks P = c.blocks P ++ [BB]
  frame : ∀ P', P' ≠ P → c'.entries P' = c.entries P'

/-- A block without an entry gets one at the end. -/
theorem looksUp_concat (h : Consistent F c) (hP : P = (Loc.ptr, isLoad)) (hBB : BB ∉ c.blocks P) :
    LooksUp F P BB c (scanForBlock F c c.reverseNonLocalPtrDeps P Loc isLoad BB none
      fun e => c.entries P ++ [e]).2 where
  consistent := by
    refine scanForBlock_spec h hP (c.entries P) (h.ptrs.congr fun P' p => ?_)
      fun Dep hDep => ⟨(h.entries_ok P).concat hBB hDep, fun p => ?_⟩
    · split
      · rename_i hPP
        rw [hPP]
      · rfl
    · simp [entryNames_append, entryNames_cons, entryNames_nil]
  blocks := .inr (blocks_scanForBlock fun Dep => by simp [Caches.blocks])
  frame P' hP' := entries_scanForBlock hP'

/-- A dirty entry is replaced, once its instruction is out of the reverse map. -/
theorem looksUp_set (h : Consistent F c) (hP : P = (Loc.ptr, isLoad)) {k : Nat}
    {e : NonLocalDepEntry} (hk : (c.entries P)[k]? = some e) (heBB : e.BB = BB)
    {m : ReverseMap InstPtr ValueIsLoadPair}
    (hm : m.Represents fun P' p =>
      EntryNames (c.entries P') p ∧ ¬ (e.result.NamesPtr p ∧ P' = P)) (scanPos : Option InstId) :
    LooksUp F P BB c
      (scanForBlock F c m P Loc isLoad BB scanPos fun x => (c.entries P).set k x).2 := by
  subst heBB
  obtain ⟨hlt, hget⟩ := List.getElem?_eq_some_iff.mp hk
  have hset : ∀ x, (c.entries P).set k x =
      (c.entries P).take k ++ x :: (c.entries P).drop (k + 1) := by
    intro x
    rw [List.set_eq_take_append_cons_drop, if_pos hlt]
  have hsplit : c.entries P = (c.entries P).take k ++ e :: (c.entries P).drop (k + 1) := by
    rw [← hset, ← hget, List.set_getElem_self]
  have hok := h.entries_ok P
  rw [hsplit] at hok
  have hblocks : ∀ Dep,
      ((c.entries P).set k ⟨e.BB, Dep⟩).map NonLocalDepEntry.BB = c.blocks P := by
    intro Dep
    rw [hset, Caches.blocks]
    conv_rhs => rw [hsplit]
    simp
  refine ⟨?_, .inl ⟨blocks_scanForBlock hblocks, ?_⟩, fun P' hP' => entries_scanForBlock hP'⟩
  · refine scanForBlock_spec h hP ((c.entries P).take k ++ (c.entries P).drop (k + 1))
      (hm.congr fun P' p => ?_) fun Dep hDep => ?_
    · split
      · rename_i hPP
        rw [hok.entryNames_others, ← hsplit, hPP]
        simp
      · rename_i hPP
        simp [hPP]
    · rw [hset]
      exact ⟨hok.replace hDep, fun p => entryNames_middle⟩
  · exact List.mem_map.mpr ⟨e, List.mem_of_getElem? hk, rfl⟩

/-- The lookup for a block returns, when the block has no entry in the part that is not sorted. -/
theorem getNonLocalInfoForBlock_spec (h : Consistent F c) (hP : P = (Loc.ptr, isLoad))
    (hs : SortedBlocks ((c.blocks P).take n)) (hfresh : BB ∉ (c.blocks P).drop n) :
    ∃ Dep c', getNonLocalInfoForBlock F c P Loc isLoad BB n = .ok (Dep, c') ∧
      LooksUp F P BB c c' := by
  rw [Caches.blocks, ← List.map_take] at hs
  cases hfind : findEntry ((c.entries P).take n) BB with
  | none =>
    have hnot : BB ∉ c.blocks P := by
      rw [← List.take_append_drop n (c.blocks P), List.mem_append, Caches.blocks, ← List.map_take]
      exact fun hx => hx.elim (not_mem_of_findEntry_eq_none hs hfind) hfresh
    exact ⟨_, _, by simp only [getNonLocalInfoForBlock, hfind]; rfl, looksUp_concat h hP hnot⟩
  | some k =>
    obtain ⟨e, hk, heBB⟩ := findEntry_eq_some hfind
    have hk : (c.entries P)[k]? = some e := by
      rw [List.getElem?_take] at hk
      split at hk
      · exact hk
      · cases hk
    have he : e ∈ c.entries P := List.mem_of_getElem? hk
    have hkeep : LooksUp F P BB c c :=
      ⟨h, .inl ⟨rfl, List.mem_map.mpr ⟨e, he, heBB⟩⟩, fun _ _ => rfl⟩
    match hres : e.result with
    | .dirty none =>
      refine ⟨_, _, by
        simp only [getNonLocalInfoForBlock, hfind, hk, Option.map_some, Option.getD_some, hres]
        rfl, looksUp_set h hP hk heBB (h.ptrs.congr fun P' p => ?_) none⟩
      simp [hres, FlowDepResult.NamesPtr, FlowDepResult.Names]
    | .dirty (some i) =>
      have hi : F.getParent i = some BB :=
        (F.getParent_iff i BB).mpr (heBB ▸ (h.entries_ok P).mem e he i (hres ▸ .inl rfl))
      obtain ⟨m, hrem, hm⟩ := h.ptrs.remove (t := .inst i) ⟨e, he, i, rfl, hres ▸ .inl rfl⟩
      refine ⟨_, _, by
        simp only [getNonLocalInfoForBlock, hfind, hk, Option.map_some, Option.getD_some, hres, hi,
          ne_eq, not_true_eq_false, if_false, ← hP, removeFromReverseMap_ok hrem]
        rfl, looksUp_set h hP hk heBB (hm.congr fun P' p => ?_) (some i)⟩
      simp [hres, FlowDepResult.NamesPtr, FlowDepResult.Names]
    | .clobber i =>
      refine ⟨.clobber i, c, ?_, hkeep⟩
      simp only [getNonLocalInfoForBlock, hfind, hk, Option.map_some, Option.getD_some, hres]
    | .defn i =>
      refine ⟨.defn i, c, ?_, hkeep⟩
      simp only [getNonLocalInfoForBlock, hfind, hk, Option.map_some, Option.getD_some, hres]
    | .other o =>
      refine ⟨.other o, c, ?_, hkeep⟩
      simp only [getNonLocalInfoForBlock, hfind, hk, Option.map_some, Option.getD_some, hres]

end Block

/-! ## Entries thrown out -/

section Drop

variable {AA : AliasAnalysis} {F : Function AA} {c c' : Caches} {P : ValueIsLoadPair}
  {check : NonLocalDepEntry → InstPtr → Bool} {es : List NonLocalDepEntry}
  {m m' : ReverseMap InstPtr ValueIsLoadPair}

theorem removeEntries_of_removeAll
    (hcheck : ∀ e ∈ es, ∀ p, e.result.getInst = some p → check e p = true)
    (h : m.removeAll (es.filterMap fun e => e.result.getInst) P = .ok m') :
    removeEntries check P m es = .ok m' := by
  induction es generalizing m with
  | nil =>
    cases h
    rfl
  | cons e es ih =>
    have hcheck' := fun x hx => hcheck x (List.mem_cons_of_mem e hx)
    cases hp : e.result.getInst with
    | none =>
      simp only [List.filterMap_cons, hp] at h
      simp only [removeEntries, List.foldlM_cons, hp]
      exact ih hcheck' h
    | some p =>
      simp only [List.filterMap_cons, hp, ReverseMap.removeAll, List.foldlM_cons] at h
      obtain ⟨m1, hm1, h⟩ := bind_eq_ok.mp h
      simp only [removeEntries, List.foldlM_cons, hp, hcheck e (List.mem_cons_self ..) p hp,
        if_true, removeFromReverseMap_ok hm1]
      exact ih hcheck' h

theorem removeAll_of_removeEntries (h : removeEntries check P m es = .ok m') :
    m.removeAll (es.filterMap fun e => e.result.getInst) P = .ok m' := by
  induction es generalizing m with
  | nil =>
    cases h
    rfl
  | cons e es ih =>
    rw [removeEntries, List.foldlM_cons] at h
    obtain ⟨m1, hm1, h⟩ := bind_eq_ok.mp h
    cases hp : e.result.getInst with
    | none =>
      simp only [hp] at hm1
      cases hm1
      simpa only [List.filterMap_cons, hp] using ih h
    | some p =>
      simp only [hp] at hm1
      split at hm1
      · simp only [List.filterMap_cons, hp, ReverseMap.removeAll, List.foldlM_cons,
          of_removeFromReverseMap_ok hm1]
        exact ih h
      · cases hm1

theorem EntriesOk.nodup_getInst (h : EntriesOk F es)
    (hmarker : ∀ e ∈ es, e.result.isMarker = false) :
    (es.filterMap fun e => e.result.getInst).Nodup := by
  rw [List.Nodup, List.pairwise_filterMap]
  refine (List.pairwise_map.mp h.nodup).imp_of_mem fun {x y} hx hy hne p hp q hq hpq => hne ?_
  subst hpq
  obtain ⟨i, rfl, hxi⟩ := (FlowDepResult.namesPtr_iff (hmarker x hx)).mpr hp
  have hyi := FlowDepResult.getInst_eq_inst_iff.mp hq
  rw [h.eq_of_names hx hy hxi hyi]

/-- Without constants among them, the entries of `P` are taken out of the reverse map. -/
theorem removeEntries_spec (check : NonLocalDepEntry → InstPtr → Bool) (h : Consistent F c)
    (hmarker : NoMarker c P)
    (hcheck : ∀ e ∈ c.entries P, ∀ i, e.result.Names i → check e (.inst i) = true) :
    ∃ m', removeEntries check P c.reverseNonLocalPtrDeps (c.entries P) = .ok m' ∧
      m'.Represents fun P' p => EntryNames (c.entries P') p ∧ P' ≠ P := by
  have hmem : ∀ p, p ∈ (c.entries P).filterMap (fun e => e.result.getInst) ↔
      EntryNames (c.entries P) p := by
    intro p
    rw [List.mem_filterMap]
    exact exists_congr fun e => and_congr_right fun he =>
      (FlowDepResult.namesPtr_iff (hmarker e he)).symm
  obtain ⟨m', hm', hrep⟩ := h.ptrs.removeAll ((h.entries_ok P).nodup_getInst hmarker)
    fun p hp => (hmem p).mp hp
  refine ⟨m', removeEntries_of_removeAll (fun e he p hp => ?_) hm', hrep.congr fun P' p => ?_⟩
  · obtain ⟨i, rfl, hi⟩ := (FlowDepResult.namesPtr_iff (hmarker e he)).mpr hp
    exact hcheck e he i hi
  · rw [hmem]
    refine and_congr_right fun hnames => ⟨fun hne hPP => hne ⟨hPP ▸ hnames, hPP⟩, fun hne hx => ?_⟩
    exact hne hx.2

/-- A constant is in no set of the reverse map, so the loop stops at it. -/
theorem noMarker_of_removeEntries (h : Consistent F c)
    (hm : removeEntries check P c.reverseNonLocalPtrDeps (c.entries P) = .ok m') :
    NoMarker c P := by
  intro e he
  by_contra hmarker
  obtain ⟨o, ho⟩ := FlowDepResult.isMarker_iff.mp (Bool.not_eq_false _ ▸ hmarker)
  have hin : InstPtr.other o ∈ (c.entries P).filterMap fun e => e.result.getInst :=
    List.mem_filterMap.mpr ⟨e, he, FlowDepResult.getInst_eq_other_iff.mpr ho⟩
  obtain ⟨_, _, _, hi, _⟩ := h.ptrs.of_removeAll (removeAll_of_removeEntries hm) _ hin
  cases hi

/-- The caches without the entries of `P`. -/
structure Drops (F : Function AA) (P : ValueIsLoadPair) (c c' : Caches) : Prop where
  consistent : Consistent F c'
  localDeps : c'.localDeps = c.localDeps
  entries : c'.entries P = []
  frame : ∀ P', P' ≠ P → c'.entries P' = c.entries P'

theorem drops_of (h : Consistent F c)
    (hm : m.Represents fun P' p => EntryNames (c.entries P') p ∧ P' ≠ P)
    (hl : c'.localDeps = c.localDeps) (hr : c'.reverseLocalDeps = c.reverseLocalDeps)
    (hrev : c'.reverseNonLocalPtrDeps = m) (hP : c'.entries P = [])
    (hframe : ∀ P', P' ≠ P → c'.entries P' = c.entries P') : Drops F P c c' where
  consistent := by
    refine h.of_entries hl hr hframe hP .nil (hrev ▸ hm.congr fun P' p => ?_)
    split
    · rename_i hPP
      simp [hPP, entryNames_nil]
    · rename_i hPP
      simp [hPP]
  localDeps := hl
  entries := hP
  frame := hframe

theorem clearInfo_spec (h : Consistent F c) (info : NonLocalPointerInfo) :
    (NoMarker c P → ∃ c', clearInfo c P info = .ok c' ∧ Drops F P c c' ∧
      c'.info P = { info with pair := none, nonLocalDeps := [] }) ∧
    ∀ c', clearInfo c P info = .ok c' → NoMarker c P := by
  constructor
  · intro hmarker
    obtain ⟨m, hm, hrep⟩ := removeEntries_spec (fun _ _ => true) h hmarker
      fun _ _ _ _ => rfl
    refine ⟨{ c.setInfo P { info with pair := none, nonLocalDeps := [] } with
      reverseNonLocalPtrDeps := m }, ?_, drops_of h hrep rfl rfl rfl ?_ fun P' hP' => ?_, ?_⟩
    · simp only [clearInfo, hm]
      rfl
    · exact Caches.entries_setInfo
    · exact Caches.entries_setInfo_of_ne hP'
    · exact Caches.info_setInfo
  · intro c' hc
    obtain ⟨m, hm, _⟩ := bind_eq_ok.mp hc
    exact noMarker_of_removeEntries h hm

theorem removeCachedNonLocalPointerDependencies_spec (h : Consistent F c) :
    (NoMarker c P → ∃ c', removeCachedNonLocalPointerDependencies F c P = .ok c' ∧
      Drops F P c c') ∧
    ∀ c', removeCachedNonLocalPointerDependencies F c P = .ok c' → NoMarker c P := by
  unfold removeCachedNonLocalPointerDependencies
  cases hinfo : c.nonLocalPointerDeps P with
  | none =>
    have hnil : c.entries P = [] := by simp [Caches.entries, Caches.info, hinfo]
    exact ⟨fun _ => ⟨c, rfl, h, rfl, hnil, fun _ _ => rfl⟩, fun _ _ => by simp [NoMarker, hnil]⟩
  | some info =>
    have hes : info.nonLocalDeps = c.entries P := by simp [Caches.entries, Caches.info, hinfo]
    constructor
    · intro hmarker
      obtain ⟨m, hm, hrep⟩ := removeEntries_spec
        (fun e Target => parentOf F Target = some e.BB) h hmarker fun e he i hi => by
          exact decide_eq_true ((F.getParent_iff i e.BB).mpr ((h.entries_ok P).mem e he i hi))
      refine ⟨{ c with
        nonLocalPointerDeps := Function.update c.nonLocalPointerDeps P none
        reverseNonLocalPtrDeps := m }, ?_, drops_of h hrep rfl rfl rfl ?_ fun P' hP' => ?_⟩
      · simp only [hes, hm]
        rfl
      · simp [Caches.entries, Caches.info]
      · simp [Caches.entries, Caches.info, hP']
    · intro c' hc
      obtain ⟨m, hm, _⟩ := bind_eq_ok.mp hc
      rw [hes] at hm
      exact noMarker_of_removeEntries h hm

/-- `c'` holds the entries of `c` for each pointer, or none. -/
structure Forgets (F : Function AA) (c c' : Caches) : Prop where
  consistent : Consistent F c'
  localDeps : c'.localDeps = c.localDeps
  entries : ∀ P, c'.entries P = c.entries P ∨ c'.entries P = []

theorem Drops.forgets (h : Drops F P c c') : Forgets F c c' where
  consistent := h.consistent
  localDeps := h.localDeps
  entries P' := by
    by_cases hPP : P' = P
    · exact .inr (hPP ▸ h.entries)
    · exact .inl (h.frame P' hPP)

/-- The cached data of a pointer is invalidated exactly when no entry holds a constant. -/
theorem invalidateCachedPointerInfo_spec (h : Consistent F c) (Ptr : Value) :
    (NoMarkers AA c Ptr → ∃ c', invalidateCachedPointerInfo F c Ptr = .ok c' ∧ Forgets F c c') ∧
    ∀ c', invalidateCachedPointerInfo F c Ptr = .ok c' → NoMarkers AA c Ptr := by
  unfold invalidateCachedPointerInfo
  by_cases hptr : AA.isPointerTy Ptr = true
  · rw [if_pos hptr]
    have hne : (some Ptr, true) ≠ ((some Ptr, false) : ValueIsLoadPair) := by simp
    constructor
    · intro hmarker
      obtain ⟨hfalse, htrue⟩ := hmarker hptr
      obtain ⟨c1, hc1, h1⟩ := (removeCachedNonLocalPointerDependencies_spec h).1 hfalse
      have htrue1 : NoMarker c1 (some Ptr, true) := by
        rwa [NoMarker, h1.frame _ hne]
      obtain ⟨c2, hc2, h2⟩ :=
        (removeCachedNonLocalPointerDependencies_spec h1.consistent).1 htrue1
      refine ⟨c2, bind_eq_ok.mpr ⟨c1, hc1, hc2⟩, h2.consistent, h2.localDeps.trans h1.localDeps,
        fun P => ?_⟩
      rcases h2.forgets.entries P with hP | hP
      · rw [hP]
        exact h1.forgets.entries P
      · exact .inr hP
    · intro c' hc _
      obtain ⟨c1, hc1, hc2⟩ := bind_eq_ok.mp hc
      have hfalse := (removeCachedNonLocalPointerDependencies_spec h).2 c1 hc1
      obtain ⟨c1', hc1', h1⟩ := (removeCachedNonLocalPointerDependencies_spec h).1 hfalse
      rw [hc1] at hc1'
      cases hc1'
      have htrue1 := (removeCachedNonLocalPointerDependencies_spec h1.consistent).2 c' hc2
      rw [NoMarker, h1.frame _ hne] at htrue1
      exact ⟨hfalse, htrue1⟩
  · rw [if_neg hptr]
    exact ⟨fun _ => ⟨c, rfl, h, rfl, fun _ => .inl rfl⟩, fun _ _ hx => absurd hx hptr⟩

end Drop

/-! ## Entries overwritten -/

section Overwrite

variable {AA : AliasAnalysis} {F : Function AA} {c : Caches} {P : ValueIsLoadPair}
  {es : List NonLocalDepEntry} {BB : BlockId}

theorem setLastResult_spec (r : FlowDepResult) (h : BB ∈ es.map NonLocalDepEntry.BB) :
    ∃ pre e post, es = pre ++ e :: post ∧ e.BB = BB ∧
      setLastResult BB r es = some (pre ++ ⟨BB, r⟩ :: post) := by
  induction es with
  | nil => cases h
  | cons x es ih =>
    by_cases hes : BB ∈ es.map NonLocalDepEntry.BB
    · obtain ⟨pre, e, post, rfl, hBB, hset⟩ := ih hes
      exact ⟨x :: pre, e, post, rfl, hBB, by simp [setLastResult, hset]⟩
    · have hx : x.BB = BB := by
        rw [List.map_cons, List.mem_cons] at h
        exact (h.resolve_right hes).symm
      have hnone : setLastResult BB r es = none := by
        clear ih h
        induction es with
        | nil => rfl
        | cons y es ih =>
          rw [List.map_cons, List.mem_cons, not_or] at hes
          simp [setLastResult, ih hes.2, Ne.symm hes.1]
      exact ⟨[], x, es, rfl, hx, by simp [setLastResult, hnone, hx]⟩

/-- An entry may be overwritten with a constant exactly when it names no instruction. -/
theorem setEntries_other_spec (h : Consistent F c) {pre post : List NonLocalDepEntry}
    {e : NonLocalDepEntry} (hes : c.entries P = pre ++ e :: post) (o : OtherType) :
    ((∀ i, ¬ e.result.Names i) →
      Consistent F (c.setEntries P (pre ++ ⟨e.BB, .other o⟩ :: post))) ∧
    ((c.setEntries P (pre ++ ⟨e.BB, .other o⟩ :: post)).Inverse F → ∀ i, ¬ e.result.Names i) := by
  have hok := h.entries_ok P
  rw [hes] at hok
  have hother : ∀ p, ¬ (FlowDepResult.other o).NamesPtr p := by
    simp [FlowDepResult.NamesPtr, FlowDepResult.Names]
  constructor
  · intro hnot
    refine h.setEntries (hok.replace fun i hi => ?_) fun p => ?_
    · simp [FlowDepResult.Names] at hi
    · rw [hes, entryNames_middle, entryNames_middle]
      refine or_congr_right ⟨fun hp => absurd hp (hother p), fun hp => ?_⟩
      obtain ⟨i, _, hi⟩ := hp
      exact absurd hi (hnot i)
  · intro hinv i hi
    have hmem : c.reverseNonLocalPtrDeps.Mem (.inst i) P := by
      rw [h.ptrs.mem_iff, hes]
      exact ⟨e, by simp, i, rfl, hi⟩
    obtain ⟨x, hx, hxi⟩ := (hinv.ptr_iff i P).mp hmem
    rw [Caches.entries_setEntries] at hx
    have hnames : EntryNames (pre ++ ⟨e.BB, .other o⟩ :: post) (.inst i) := ⟨x, hx, i, rfl, hxi⟩
    rw [entryNames_middle, hok.entryNames_others] at hnames
    rcases hnames with hnames | hnames
    · exact hnames.2 ⟨i, rfl, hi⟩
    · exact hother _ hnames

end Overwrite

end FlowDep
end DepTaint
