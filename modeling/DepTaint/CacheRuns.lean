import DepTaint.CacheRemoval

/-!
# CacheRuns

The caches of the flow dependence analysis over whole runs.

`WalkInv` is the invariant of a walk: between its parts the caches are consistent, and only the
entries that the running activation has added, for blocks it has marked as visited and will not come
back to, may be out of order.

* `advance_spec`: each part of a walk keeps it, when the part is careful.
* `caches_inverse`: in every run of careful steps the caches and the reverse maps are inverse in
  every state, and a further step keeps them so exactly when it is careful.
* `caches_not_inverse`: in a run with other steps they need not be.
-/

namespace DepTaint
namespace FlowDep

/-! ## The cached record -/

section Reconcile

variable {AA : AliasAnalysis} {F : Function AA} {c : Caches}

theorem Forgets.refl (h : Consistent F c) : Forgets F c c := ⟨h, rfl, fun _ => .inl rfl⟩

theorem Forgets.trans {c1 c2 : Caches} (h1 : Forgets F c c1) (h2 : Forgets F c1 c2) :
    Forgets F c c2 where
  consistent := h2.consistent
  localDeps := h2.localDeps.trans h1.localDeps
  entries P := by
    rcases h2.entries P with hP | hP
    · rw [hP]
      exact h1.entries P
    · exact .inr hP

theorem Forgets.sorted {c' : Caches} (h : Forgets F c c') (hs : ∀ P, SortedBlocks (c.blocks P))
    (P : ValueIsLoadPair) : SortedBlocks (c'.blocks P) := by
  rw [Caches.blocks]
  rcases h.entries P with hP | hP
  · rw [hP]
    exact hs P
  · rw [hP]
    exact .nil

theorem reconcileTBAATag_spec (h : Consistent F c) (P : ValueIsLoadPair) (loc : Location) :
    (((c.info P).tbaaTag ≠ loc.tbaaTag ∧ (c.info P).tbaaTag.isSome → NoMarker c P) →
      ∃ c' restart, reconcileTBAATag c P loc = .ok (c', restart) ∧ Forgets F c c' ∧
        ∀ loc', restart = some loc' → loc'.ptr = loc.ptr) ∧
    ∀ r, reconcileTBAATag c P loc = .ok r →
      (c.info P).tbaaTag ≠ loc.tbaaTag ∧ (c.info P).tbaaTag.isSome → NoMarker c P := by
  unfold reconcileTBAATag
  by_cases htag : (c.info P).tbaaTag = loc.tbaaTag
  · simp only [htag, ne_eq, not_true_eq_false, if_false]
    exact ⟨fun _ => ⟨c, none, rfl, .refl h, by simp⟩, by simp⟩
  · simp only [htag, ne_eq, not_false_eq_true, if_true, true_and]
    have hrestart : ∀ loc', (if loc.tbaaTag.isSome then some { loc with tbaaTag := none } else none)
        = some loc' → loc'.ptr = loc.ptr := by
      intro loc' hloc
      split at hloc
      · rw [← Option.some.inj hloc]
      · cases hloc
    by_cases hsome : (c.info P).tbaaTag.isSome
    · simp only [hsome, if_true]
      obtain ⟨hok, hfail⟩ := clearInfo_spec (P := P) h { c.info P with tbaaTag := none }
      constructor
      · intro hmarker
        obtain ⟨c', hc', hdrop, _⟩ := hok (hmarker trivial)
        exact ⟨c', _, by rw [hc']; rfl, hdrop.forgets, hrestart⟩
      · intro r hr _
        obtain ⟨c', hc', _⟩ := bind_eq_ok.mp hr
        exact hfail c' hc'
    · simp only [hsome, Bool.false_eq_true, if_false]
      exact ⟨fun _ => ⟨c, _, rfl, .refl h, hrestart⟩, by simp⟩

/-- A record is reconciled with a query exactly when the entries it throws out hold no constant. -/
theorem reconcile_spec (h : Consistent F c) (P : ValueIsLoadPair) (loc : Location) :
    (((c.info P).ClearedBy loc → NoMarker c P) →
      ∃ c' restart, reconcile c P loc = .ok (c', restart) ∧ Forgets F c c' ∧
        ∀ loc', restart = some loc' → loc'.ptr = loc.ptr) ∧
    ∀ r, reconcile c P loc = .ok r → (c.info P).ClearedBy loc → NoMarker c P := by
  unfold reconcile
  cases hinfo : c.nonLocalPointerDeps P with
  | none =>
    have hnil : c.entries P = [] := by simp [Caches.entries, Caches.info, hinfo]
    have hentries : ∀ P', (c.setInfo P { size := loc.size, tbaaTag := loc.tbaaTag }).entries P' =
        c.entries P' := by
      intro P'
      by_cases hPP : P' = P
      · rw [hPP, hnil, Caches.entries_setInfo]
      · exact Caches.entries_setInfo_of_ne hPP
    refine ⟨fun _ => ⟨_, none, rfl, ?_, by simp⟩, fun _ _ _ => by simp [NoMarker, hnil]⟩
    exact ⟨h.of_entries_eq rfl rfl rfl hentries, rfl, fun P' => .inl (hentries P')⟩
  | some info =>
    have hget : c.info P = info := by simp [Caches.info, hinfo]
    subst hget
    dsimp only
    by_cases hlt : (c.info P).size < loc.size
    · -- the query is larger: the data is thrown out, and nothing is left to throw out for the tag
      rw [if_pos hlt]
      obtain ⟨hok, hfail⟩ := clearInfo_spec (P := P) h { c.info P with size := loc.size }
      constructor
      · intro hmarker
        obtain ⟨c1, hc1, hdrop, _⟩ := hok (hmarker (.inl hlt))
        obtain ⟨c2, restart, hc2, hforget, hptr⟩ :=
          (reconcileTBAATag_spec hdrop.consistent P loc).1 fun _ => by
            simp [NoMarker, hdrop.entries]
        exact ⟨c2, restart, bind_eq_ok.mpr ⟨c1, hc1, hc2⟩, hdrop.forgets.trans hforget, hptr⟩
      · intro r hr _
        obtain ⟨c1, hc1, _⟩ := bind_eq_ok.mp hr
        exact hfail c1 hc1
    · rw [if_neg hlt]
      by_cases hgt : (c.info P).size > loc.size
      · rw [if_pos hgt]
        refine ⟨fun _ => ⟨c, _, rfl, .refl h, fun loc' hloc => ?_⟩, fun _ _ hclear => ?_⟩
        · rw [← Option.some.inj hloc]
        · rcases hclear with hclear | hclear
          · exact absurd hclear hlt
          · omega
      · rw [if_neg hgt]
        have hclear : (c.info P).ClearedBy loc ↔
            (c.info P).tbaaTag ≠ loc.tbaaTag ∧ (c.info P).tbaaTag.isSome = true := by
          have heq : (c.info P).size = loc.size := by omega
          simp [NonLocalPointerInfo.ClearedBy, heq]
        rw [hclear]
        exact reconcileTBAATag_spec h P loc

end Reconcile

/-! ## The predecessors of a block -/

section VisitPreds

variable {addr : BlockId → Option Value} {ps newBlocks : List BlockId} {v : Visited}

theorem visitPreds_spec {v' : Visited} {nb : List BlockId}
    (h : visitPreds addr ps v newBlocks = some (v', nb)) :
    ∃ new, nb = newBlocks ++ new ∧ new.Nodup ∧
      (∀ b ∈ new, v b = none ∧ (v' b).isSome) ∧ ∀ b, (v b).isSome → (v' b).isSome := by
  induction ps generalizing v newBlocks with
  | nil =>
    cases h
    exact ⟨[], by simp, by simp, by simp, fun _ hb => hb⟩
  | cons p ps ih =>
    unfold visitPreds at h
    cases hp : v p with
    | none =>
      simp only [hp] at h
      obtain ⟨new, hnb, hnd, hnew, hmono⟩ := ih h
      have hpv : (v' p).isSome := hmono p (by simp)
      have hne : ∀ b ∈ new, b ≠ p := by
        intro b hb hbp
        have := (hnew b hb).1
        simp [hbp] at this
      refine ⟨p :: new, by simp [hnb], List.nodup_cons.mpr ⟨fun hp => hne p hp rfl, hnd⟩,
        fun b hb => ?_, fun b hb => ?_⟩
      · rcases List.mem_cons.mp hb with rfl | hb
        · exact ⟨hp, hpv⟩
        · obtain ⟨hnone, hsome⟩ := hnew b hb
          rw [Function.update_of_ne (hne b hb)] at hnone
          exact ⟨hnone, hsome⟩
      · by_cases hbp : b = p
        · exact hbp ▸ hpv
        · exact hmono b (by rwa [Function.update_of_ne hbp])
    | some a =>
      simp only [hp] at h
      split at h
      · cases h
      · exact ih h

/-- Predecessors that have been seen with the pointer, if at all, are no conflict. -/
theorem visitPreds_isSome {a : Option Value} (h : ∀ b, v b = none ∨ v b = some a) :
    (visitPreds (fun _ => a) ps v newBlocks).isSome := by
  induction ps generalizing v newBlocks with
  | nil => rfl
  | cons p ps ih =>
    unfold visitPreds
    rcases h p with hp | hp
    · simp only [hp]
      refine ih fun b => ?_
      by_cases hbp : b = p
      · exact .inr (by simp [hbp])
      · rw [Function.update_of_ne hbp]
        exact h b
    · simp only [hp, ne_eq, not_true_eq_false, if_false]
      exact ih h

theorem isSome_insert {b b' : BlockId} {a : Option Value} (h : (v b).isSome) :
    (v.insert b' a b).isSome := by
  unfold Visited.insert
  split
  · exact h
  · by_cases hb : b = b'
    · simp [hb]
    · rwa [Function.update_of_ne hb]

end VisitPreds

/-! ## The invariant of a walk -/

section Walk

variable {S : Setting} {F : Function S.AA} {c : Caches} {isLoad : Bool} {visited : Visited}
  {f : Frame S} {w : Walk S}

/-- Every list of entries is sorted. -/
abbrev AllSorted (c : Caches) : Prop := ∀ P, SortedBlocks (c.blocks P)

/-- The local variables of an activation between two parts of it. -/
structure FrameOk (visited : Visited) (f : Frame S) : Prop where
  ptr : S.phi.getAddr f.pointer = f.loc.ptr
  nodup : f.worklist.Nodup
  seen : ∀ b ∈ f.worklist, (visited b).isSome

/-- The running activation: its entries are sorted up to those for blocks it has dealt with. -/
structure Active (c : Caches) (isLoad : Bool) (visited : Visited) (f : Frame S) : Prop where
  frame : FrameOk visited f
  le : f.numSortedEntries ≤ (c.blocks (f.key isLoad)).length
  sorted : SortedBlocks ((c.blocks (f.key isLoad)).take f.numSortedEntries)
  fresh : ∀ b ∈ f.worklist, b ∉ (c.blocks (f.key isLoad)).drop f.numSortedEntries
  added : ∀ b ∈ (c.blocks (f.key isLoad)).drop f.numSortedEntries, (visited b).isSome
  others : ∀ P, P ≠ f.key isLoad → SortedBlocks (c.blocks P)

/-- The first block of a query is skipped, before anything is visited. -/
structure Starting (c : Caches) (isLoad : Bool) (visited : Visited) (f : Frame S) : Prop where
  ptr : S.phi.getAddr f.pointer = f.loc.ptr
  worklist : ∃ b, f.worklist = [b]
  visited : ∀ b, visited b = none
  all : f.numSortedEntries = (c.blocks (f.key isLoad)).length
  sorted : AllSorted c

/-- A call for `startBB`. -/
structure CallOk (c : Caches) (visited : Visited) (pointer : S.phi.Addr) (loc : Location)
    (startBB : BlockId) (skip : Bool) : Prop where
  ptr : S.phi.getAddr pointer = loc.ptr
  sorted : AllSorted c
  first : skip = true → ∀ b, visited b = none
  seen : skip = false → (visited startBB).isSome

def ControlOk (c : Caches) (isLoad : Bool) (visited : Visited) : Control S → Prop
  | .enter pointer loc startBB skip => CallOk c visited pointer loc startBB skip
  | .lookup pointer loc startBB skip => CallOk c visited pointer loc startBB skip
  | .iterate f =>
    if f.skipFirstBlock then Starting c isLoad visited f else Active c isLoad visited f
  | .transparent f BB => Active c isLoad visited f ∧
    if f.skipFirstBlock then ∀ b, visited b = none else BB ∈ c.blocks (f.key isLoad)
  | .failed f BB => Active c isLoad visited f ∧
    if f.skipFirstBlock then AllSorted c else BB ∈ c.blocks (f.key isLoad)
  | .preds f predList => FrameOk visited f ∧ AllSorted c ∧ ∀ p ∈ predList, (visited p.1).isSome
  | .ret _ => AllSorted c

structure WalkInv (F : Function S.AA) (c : Caches) (w : Walk S) : Prop where
  consistent : Consistent F c
  control : ControlOk c w.isLoad w.visited w.control
  stack : ∀ s ∈ w.stack, FrameOk w.visited s.frame ∧ ∀ p ∈ s.predList, (w.visited p.1).isSome

/-- The state after a part: the walk goes on, or it is over. -/
def AdvancedOk (F : Function S.AA) : Advanced S → Prop
  | (c, .inl w) => WalkInv F c w
  | (c, .inr _) => Consistent F c ∧ AllSorted c

theorem FrameOk.mono (h : FrameOk visited f) {visited' : Visited}
    (hv : ∀ b, (visited b).isSome → (visited' b).isSome) : FrameOk visited' f :=
  ⟨h.ptr, h.nodup, fun b hb => hv b (h.seen b hb)⟩

/-- The activations that wait do not mind what else is visited. -/
theorem WalkInv.stack_mono (h : WalkInv F c w) {visited : Visited}
    (hv : ∀ b, (w.visited b).isSome → (visited b).isSome) : ∀ s ∈ w.stack,
    FrameOk visited s.frame ∧ ∀ p ∈ s.predList, (visited p.1).isSome := by
  intro s hs
  obtain ⟨hframe, hpreds⟩ := h.stack s hs
  exact ⟨hframe.mono hv, fun p hp => hv p.1 (hpreds p hp)⟩

theorem blocks_setPair {P P' : ValueIsLoadPair} {pair : Option (BlockId × Bool)} :
    (c.setPair P pair).blocks P' = c.blocks P' := by
  rw [Caches.blocks, Caches.entries_setPair, Caches.blocks]

theorem allSorted_setPair {P : ValueIsLoadPair} {pair : Option (BlockId × Bool)}
    (h : AllSorted c) : AllSorted (c.setPair P pair) := by
  intro P'
  rw [blocks_setPair]
  exact h P'

theorem Active.congr (h : Active c isLoad visited f) {c' : Caches}
    (hblocks : c'.blocks (f.key isLoad) = c.blocks (f.key isLoad))
    (hothers : ∀ P, P ≠ f.key isLoad → SortedBlocks (c'.blocks P)) :
    Active c' isLoad visited f where
  frame := h.frame
  le := by
    rw [hblocks]
    exact h.le
  sorted := by
    rw [hblocks]
    exact h.sorted
  fresh := by
    rw [hblocks]
    exact h.fresh
  added := by
    rw [hblocks]
    exact h.added
  others := hothers

/-- With all entries sorted, an activation may start to add. -/
theorem active_of_allSorted (hf : FrameOk visited f) (hs : AllSorted c)
    (hall : f.numSortedEntries = (c.blocks (f.key isLoad)).length) :
    Active c isLoad visited f where
  frame := hf
  le := Nat.le_of_eq hall
  sorted := by
    rw [hall, List.take_length]
    exact hs _
  fresh := by simp [hall]
  added := by simp [hall]
  others P _ := hs P

/-- The caches with the entries of the running activation sorted. -/
abbrev Frame.sort (f : Frame S) (c : Caches) (isLoad : Bool) : Caches :=
  c.setEntries (f.key isLoad)
    (sortNonLocalDepInfoCache (c.entries (f.key isLoad)) f.numSortedEntries)

theorem Active.sort (h : Active c isLoad visited f) (hc : Consistent F c) :
    Consistent F (f.sort c isLoad) ∧ AllSorted (f.sort c isLoad) ∧
      ((f.sort c isLoad).blocks (f.key isLoad)).Perm (c.blocks (f.key isLoad)) := by
  have hs := h.sorted
  rw [Caches.blocks, ← List.map_take] at hs
  obtain ⟨hperm, hsorted⟩ := sortNonLocalDepInfoCache_spec hs
  refine ⟨hc.setEntries ((hc.entries_ok _).perm hperm) fun p => entryNames_perm hperm,
    fun P => ?_, ?_⟩
  · rw [Caches.blocks]
    by_cases hP : P = f.key isLoad
    · rw [hP, Caches.entries_setEntries]
      exact hsorted
    · rw [Caches.entries_setEntries_of_ne hP]
      exact h.others P hP
  · rw [Caches.blocks, Caches.entries_setEntries]
    exact hperm.map _

/-- An entry of the running activation overwritten, with the record no longer complete. -/
theorem Active.overwrite (h : Active c isLoad visited f) {pre post : List NonLocalDepEntry}
    {e : NonLocalDepEntry} (hes : c.entries (f.key isLoad) = pre ++ e :: post)
    (r : FlowDepResult) :
    Active ((c.setPair (f.key isLoad) none).setEntries (f.key isLoad) (pre ++ ⟨e.BB, r⟩ :: post))
      isLoad visited f := by
  refine h.congr ?_ fun P hP => ?_
  · rw [Caches.blocks, Caches.entries_setEntries, Caches.blocks, hes]
    simp
  · rw [Caches.blocks, Caches.entries_setEntries_of_ne hP, Caches.entries_setPair]
    exact h.others P hP

/-! ## The parts of a walk -/

theorem enter_spec (h : WalkInv F c w) {pointer : S.phi.Addr} {loc : Location} {startBB : BlockId}
    {skip : Bool} (hw : w.control = .enter pointer loc startBB skip) :
    (w.Careful c → ∃ r, w.enter c pointer loc startBB skip = .ok r ∧ AdvancedOk F r) ∧
    ∀ r, w.enter c pointer loc startBB skip = .ok r → w.Careful c := by
  have hcall : CallOk c w.visited pointer loc startBB skip := by
    simpa only [hw, ControlOk] using h.control
  obtain ⟨hok, hfail⟩ := reconcile_spec h.consistent (S.phi.getAddr pointer, w.isLoad) loc
  simp only [Walk.Careful, hw, Walk.enter]
  constructor
  · intro hmarker
    obtain ⟨c', restart, hc', hforget, hptr⟩ := hok hmarker
    rw [hc']
    cases restart with
    | none =>
      refine ⟨_, rfl, hforget.consistent, ?_, h.stack⟩
      exact ⟨hcall.ptr, hforget.sorted hcall.sorted, hcall.first, hcall.seen⟩
    | some loc' =>
      refine ⟨_, rfl, hforget.consistent, ?_, h.stack⟩
      exact ⟨hcall.ptr.trans (hptr loc' rfl).symm, hforget.sorted hcall.sorted, hcall.first,
        hcall.seen⟩
  · intro r hr
    obtain ⟨r', hr', _⟩ := bind_eq_ok.mp hr
    exact hfail r' hr'

theorem lookup_spec (h : WalkInv F c w) {pointer : S.phi.Addr} {loc : Location} {startBB : BlockId}
    {skip : Bool} (hw : w.control = .lookup pointer loc startBB skip) :
    AdvancedOk F (w.lookup c pointer loc startBB skip) := by
  have hcall : CallOk c w.visited pointer loc startBB skip := by
    simpa only [hw, ControlOk] using h.control
  unfold Walk.lookup
  extract_lets addr key Cache f
  split
  · split
    · exact ⟨h.consistent, hcall.sorted, h.stack⟩
    · refine ⟨h.consistent, hcall.sorted, h.stack_mono fun b hb => ?_⟩
      exact foldl_preserves (P := fun v : Visited => (v b).isSome) hb fun v e _ => isSome_insert
  · refine ⟨h.consistent.setPair _, ?_, h.stack⟩
    have hlen : f.numSortedEntries =
        ((c.setPair key (if Cache = [] then some (startBB, skip) else none)).blocks
          (f.key w.isLoad)).length := by
      rw [blocks_setPair]
      simp [f, Cache, key, Caches.blocks, Frame.key, addr]
    show if skip then _ else _
    split
    · rename_i hskip
      exact ⟨hcall.ptr, ⟨startBB, rfl⟩, hcall.first hskip, hlen, allSorted_setPair hcall.sorted⟩
    · rename_i hskip
      refine active_of_allSorted ⟨hcall.ptr, by simp [f], fun b hb => ?_⟩
        (allSorted_setPair hcall.sorted) hlen
      rw [List.mem_singleton.mp hb]
      exact hcall.seen (by simpa using hskip)

/-- The lookup for the next block of the worklist. -/
theorem Active.lookUp (h : Active c isLoad visited f) {BB : BlockId} {rest : List BlockId}
    (hwork : f.worklist = BB :: rest) {c' : Caches} (hl : LooksUp F (f.key isLoad) BB c c') :
    Active c' isLoad visited { f with worklist := rest } ∧ BB ∈ c'.blocks (f.key isLoad) := by
  have hnd := h.frame.nodup
  have hseen := h.frame.seen
  rw [hwork] at hnd hseen
  obtain ⟨hBB, hnd⟩ := List.nodup_cons.mp hnd
  have hothers : ∀ P, P ≠ f.key isLoad → SortedBlocks (c'.blocks P) := by
    intro P hP
    rw [Caches.blocks, hl.frame P hP]
    exact h.others P hP
  have hframe : FrameOk visited { f with worklist := rest } :=
    ⟨h.frame.ptr, hnd, fun b hb => hseen b (List.mem_cons_of_mem _ hb)⟩
  have hfresh : ∀ b ∈ rest, b ∉ (c.blocks (f.key isLoad)).drop f.numSortedEntries :=
    fun b hb => h.fresh b (hwork ▸ List.mem_cons_of_mem _ hb)
  rcases hl.blocks with ⟨hb, hmem⟩ | hb
  · have hpop : Active c isLoad visited { f with worklist := rest } :=
      ⟨hframe, h.le, h.sorted, hfresh, h.added, h.others⟩
    exact ⟨hpop.congr hb hothers, hb ▸ hmem⟩
  · -- a new entry stands behind the sorted ones
    have htake : (c'.blocks (f.key isLoad)).take f.numSortedEntries =
        (c.blocks (f.key isLoad)).take f.numSortedEntries := by
      rw [hb, List.take_append_of_le_length h.le]
    have hdrop : (c'.blocks (f.key isLoad)).drop f.numSortedEntries =
        (c.blocks (f.key isLoad)).drop f.numSortedEntries ++ [BB] := by
      rw [hb, List.drop_append_of_le_length h.le]
    refine ⟨⟨hframe, ?_, htake.symm ▸ h.sorted, fun b hr => ?_, fun b hd => ?_, hothers⟩, ?_⟩
    · have hlen := congrArg List.length hb
      have hle := h.le
      simp only [List.length_append, List.length_singleton] at hlen
      show f.numSortedEntries ≤ (c'.blocks (f.key isLoad)).length
      omega
    · show b ∉ (c'.blocks (f.key isLoad)).drop f.numSortedEntries
      rw [hdrop, List.mem_append, List.mem_singleton, not_or]
      exact ⟨hfresh b hr, fun hbBB => hBB (hbBB ▸ hr)⟩
    · replace hd : b ∈ (c'.blocks (f.key isLoad)).drop f.numSortedEntries := hd
      rw [hdrop, List.mem_append, List.mem_singleton] at hd
      rcases hd with hd | rfl
      · exact h.added b hd
      · exact hseen b (List.mem_cons_self ..)
    · rw [hb]
      exact List.mem_append_right _ (List.mem_singleton_self BB)

theorem iterate_spec (h : WalkInv F c w) (hw : w.control = .iterate f) :
    ∃ r, w.iterate F c f = .ok r ∧ AdvancedOk F r := by
  have hcontrol : if f.skipFirstBlock then Starting c w.isLoad w.visited f
      else Active c w.isLoad w.visited f := by
    simpa only [hw, ControlOk] using h.control
  unfold Walk.iterate
  by_cases hskip : f.skipFirstBlock = true
  · rw [if_pos hskip] at hcontrol
    obtain ⟨BB, hBB⟩ := hcontrol.worklist
    simp only [hBB, hskip, if_true]
    refine ⟨_, rfl, h.consistent, ⟨?_, ?_⟩, h.stack⟩
    · exact active_of_allSorted ⟨hcontrol.ptr, by simp, by simp⟩ hcontrol.sorted hcontrol.all
    · exact hcontrol.visited
  · rw [if_neg hskip] at hcontrol
    cases hwork : f.worklist with
    | nil =>
      obtain ⟨hcons, hsorted, _⟩ := hcontrol.sort h.consistent
      exact ⟨_, rfl, hcons, hsorted, h.stack⟩
    | cons BB rest =>
      have hseen : ¬ (w.visited BB).isNone := by
        rw [Option.isNone_iff_eq_none]
        exact Option.isSome_iff_ne_none.mp (hcontrol.frame.seen BB (by simp [hwork]))
      dsimp only
      rw [if_neg hskip, if_neg hseen]
      have hkey : f.key w.isLoad = (f.loc.ptr, w.isLoad) := by
        rw [Frame.key, hcontrol.frame.ptr]
      obtain ⟨Dep, c', hlook, hl⟩ := getNonLocalInfoForBlock_spec h.consistent hkey hcontrol.sorted
        (hcontrol.fresh BB (by simp [hwork]))
      obtain ⟨hactive, hmem⟩ := hcontrol.lookUp hwork hl
      have hiterate : ControlOk c' w.isLoad w.visited (.iterate { f with worklist := rest }) := by
        show if f.skipFirstBlock then _ else _
        rwa [if_neg hskip]
      have htransparent :
          ControlOk c' w.isLoad w.visited (.transparent { f with worklist := rest } BB) := by
        refine ⟨hactive, ?_⟩
        show if f.skipFirstBlock then _ else _
        rwa [if_neg hskip]
      rw [hlook]
      show ∃ r, (if Dep.isNonLocal then _ else _) = Except.ok r ∧ _
      split
      · exact ⟨_, rfl, hl.consistent, htransparent, h.stack⟩
      · cases S.DT with
        | none => exact ⟨_, rfl, hl.consistent, hiterate, h.stack⟩
        | some isReachable =>
          dsimp only
          split
          · exact ⟨_, rfl, hl.consistent, hiterate, h.stack⟩
          · exact ⟨_, rfl, hl.consistent, htransparent, h.stack⟩

/-- Nothing has been added while nothing is visited. -/
theorem Active.allSorted (h : Active c isLoad visited f) (hv : ∀ b, visited b = none) :
    AllSorted c := by
  intro P
  by_cases hP : P = f.key isLoad
  · subst hP
    have hdrop : (c.blocks (f.key isLoad)).drop f.numSortedEntries = [] := by
      refine List.eq_nil_iff_forall_not_mem.mpr fun b hb => ?_
      have hb := h.added b hb
      rw [hv b] at hb
      cases hb
    have htake := List.take_append_drop f.numSortedEntries (c.blocks (f.key isLoad))
    rw [hdrop, List.append_nil] at htake
    rw [← htake]
    exact h.sorted
  · exact h.others P hP

/-- The predecessors seen for the first time join the worklist. -/
theorem Active.push (h : Active c isLoad visited f) {visited' : Visited} {new : List BlockId}
    (hnd : new.Nodup) (hnew : ∀ b ∈ new, visited b = none ∧ (visited' b).isSome)
    (hmono : ∀ b, (visited b).isSome → (visited' b).isSome) :
    Active c isLoad visited'
      { f with skipFirstBlock := false, worklist := new.reverse ++ f.worklist } where
  frame := by
    refine ⟨h.frame.ptr, ?_, fun b hb => ?_⟩
    · refine List.nodup_append.mpr ⟨List.nodup_reverse.mpr hnd, h.frame.nodup, ?_⟩
      intro a ha b hb hab
      have hb := h.frame.seen b hb
      rw [← hab, (hnew a (List.mem_reverse.mp ha)).1] at hb
      cases hb
    · rcases List.mem_append.mp hb with hb | hb
      · exact (hnew b (List.mem_reverse.mp hb)).2
      · exact hmono b (h.frame.seen b hb)
  le := h.le
  sorted := h.sorted
  fresh b hb hd := by
    rcases List.mem_append.mp hb with hb | hb
    · have hd := h.added b hd
      rw [(hnew b (List.mem_reverse.mp hb)).1] at hd
      cases hd
    · exact h.fresh b hb hd
  added b hb := hmono b (h.added b hb)
  others := h.others

theorem transparent_spec (h : WalkInv F c w) {BB : BlockId} (hw : w.control = .transparent f BB) :
    AdvancedOk F (w.transparent c f BB) := by
  have hcontrol : Active c w.isLoad w.visited f ∧
      if f.skipFirstBlock then ∀ b, w.visited b = none else BB ∈ c.blocks (f.key w.isLoad) := by
    simpa only [hw, ControlOk] using h.control
  obtain ⟨hactive, hBB⟩ := hcontrol
  unfold Walk.transparent
  split
  · -- the predecessors are scanned for the same pointer
    dsimp only
    cases hvisit : visitPreds (fun _ => S.phi.getAddr f.pointer) (S.getPreds BB) w.visited [] with
    | none =>
      refine ⟨h.consistent, ⟨hactive.push List.nodup_nil (by simp) fun _ hb => hb, ?_⟩, h.stack⟩
      show BB ∈ c.blocks (f.key w.isLoad)
      by_cases hskip : f.skipFirstBlock = true
      · rw [if_pos hskip] at hBB
        have hsome : (visitPreds (fun _ => S.phi.getAddr f.pointer) (S.getPreds BB) w.visited
            []).isSome := visitPreds_isSome fun b => .inl (hBB b)
        rw [hvisit] at hsome
        cases hsome
      · rwa [if_neg hskip] at hBB
    | some r =>
      obtain ⟨visited', NewBlocks⟩ := r
      obtain ⟨new, hnb, hnd, hnew, hmono⟩ := visitPreds_spec hvisit
      rw [List.nil_append] at hnb
      subst hnb
      exact ⟨h.consistent, hactive.push hnd hnew hmono, h.stack_mono hmono⟩
  · split
    · refine ⟨h.consistent, ⟨hactive, ?_⟩, h.stack⟩
      by_cases hskip : f.skipFirstBlock = true
      · rw [if_pos hskip] at hBB ⊢
        exact hactive.allSorted hBB
      · rwa [if_neg hskip] at hBB ⊢
    · -- each predecessor sees its own translation of the pointer
      obtain ⟨hcons, hsorted, hblocks⟩ := hactive.sort h.consistent
      dsimp only
      generalize hvisit : visitPreds _ (S.getPreds BB) w.visited [] = r
      cases r with
      | none =>
        refine ⟨hcons, ⟨active_of_allSorted ⟨hactive.frame.ptr, hactive.frame.nodup,
          hactive.frame.seen⟩ hsorted ?_, ?_⟩, h.stack⟩
        · refine Eq.trans ?_ hblocks.length_eq.symm
          exact (List.length_map _).symm
        · show if f.skipFirstBlock then _ else _
          split
          · exact hsorted
          · rename_i hskip
            rw [if_neg hskip] at hBB
            exact hblocks.mem_iff.mpr hBB
      | some r =>
        obtain ⟨visited', NewBlocks⟩ := r
        obtain ⟨new, hnb, _, hnew, hmono⟩ := visitPreds_spec hvisit
        rw [List.nil_append] at hnb
        subst hnb
        refine ⟨hcons, ⟨⟨hactive.frame.ptr, hactive.frame.nodup,
          fun b hb => hmono b (hactive.frame.seen b hb)⟩, hsorted, fun p hp => ?_⟩,
          h.stack_mono hmono⟩
        obtain ⟨b, hb, rfl⟩ := List.mem_map.mp hp
        exact (hnew b hb).2

theorem failed_spec (h : WalkInv F c w) {BB : BlockId} (hw : w.control = .failed f BB) :
    ∃ c' w', w.failed c f BB = .ok (c', .inl w') ∧ (w.Careful c → WalkInv F c' w') ∧
      (c'.Inverse F → w.Careful c) := by
  have hcontrol : Active c w.isLoad w.visited f ∧
      if f.skipFirstBlock then AllSorted c else BB ∈ c.blocks (f.key w.isLoad) := by
    simpa only [hw, ControlOk] using h.control
  obtain ⟨hactive, hBB⟩ := hcontrol
  unfold Walk.failed
  simp only [Walk.Careful, hw]
  have hpair := h.consistent.setPair (P := f.key w.isLoad) none
  by_cases hskip : f.skipFirstBlock = true
  · rw [if_pos hskip] at hBB ⊢
    exact ⟨_, _, rfl, fun _ => ⟨hpair, allSorted_setPair hBB, h.stack⟩,
      fun _ hx => absurd (hskip.symm.trans hx) (by decide)⟩
  · rw [if_neg hskip] at hBB ⊢
    obtain ⟨pre, e, post, hes, heBB, hset⟩ := setLastResult_spec (.other .unknown) hBB
    rw [Caches.entries_setPair, hset]
    subst heBB
    have hes' : (c.setPair (f.key w.isLoad) none).entries (f.key w.isLoad) = pre ++ e :: post := by
      rw [Caches.entries_setPair, hes]
    obtain ⟨hok, hinv⟩ := setEntries_other_spec hpair hes' .unknown
    -- only the entry of the block is overwritten
    have hunique : ∀ x ∈ c.entries (f.key w.isLoad), x.BB = e.BB → x = e := fun x hx hxe =>
      List.inj_on_of_nodup_map (h.consistent.entries_ok _).nodup hx (by simp [hes]) hxe
    refine ⟨_, _, rfl, fun hcareful => ⟨?_, ?_, h.stack⟩, fun hc _ x hx hxe => ?_⟩
    · exact hok (hcareful (by simpa using hskip) e (by simp [hes]) rfl)
    · show if f.skipFirstBlock then _ else _
      rw [if_neg hskip]
      exact hactive.overwrite hes (.other .unknown)
    · rw [hunique x hx hxe]
      exact hinv hc

theorem preds_spec (h : WalkInv F c w) {predList : List (BlockId × S.phi.Addr)}
    (hw : w.control = .preds f predList) : AdvancedOk F (w.preds c f predList) := by
  have hcontrol : FrameOk w.visited f ∧ AllSorted c ∧
      ∀ p ∈ predList, (w.visited p.1).isSome := by
    simpa only [hw, ControlOk] using h.control
  obtain ⟨hframe, hsorted, hpreds⟩ := hcontrol
  unfold Walk.preds
  cases predList with
  | nil =>
    refine ⟨h.consistent.setPair none, ?_, h.stack⟩
    refine active_of_allSorted ⟨hframe.ptr, hframe.nodup, hframe.seen⟩
      (allSorted_setPair hsorted) ?_
    rw [blocks_setPair]
    exact (List.length_map _).symm
  | cons p predList =>
    obtain ⟨Pred, PredPointer⟩ := p
    have hrest := fun p hp => hpreds p (List.mem_cons_of_mem _ hp)
    cases haddr : S.phi.getAddr PredPointer with
    | none =>
      simp only [haddr]
      exact ⟨h.consistent.setPair none, ⟨hframe, allSorted_setPair hsorted, hrest⟩, h.stack⟩
    | some v =>
      simp only [haddr]
      refine ⟨h.consistent, ⟨haddr, hsorted, by simp, fun _ => ?_⟩, fun s hs => ?_⟩
      · exact hpreds (Pred, PredPointer) (List.mem_cons_self ..)
      · rcases List.mem_cons.mp hs with rfl | hs
        · exact ⟨hframe, hrest⟩
        · exact h.stack s hs

theorem ret_spec (h : WalkInv F c w) {failed : Bool} (hw : w.control = .ret failed) :
    AdvancedOk F (w.ret c failed) := by
  have hsorted : AllSorted c := by simpa only [hw, ControlOk] using h.control
  unfold Walk.ret
  cases hstack : w.stack with
  | nil => exact ⟨h.consistent, hsorted⟩
  | cons s stack =>
    obtain ⟨hframe, hpreds⟩ := h.stack s (by simp [hstack])
    have hrest : ∀ s ∈ stack, FrameOk w.visited s.frame ∧
        ∀ p ∈ s.predList, (w.visited p.1).isSome :=
      fun s hs => h.stack s (by simp [hstack, hs])
    dsimp only
    split
    · exact ⟨h.consistent.setPair none, ⟨hframe, allSorted_setPair hsorted, hpreds⟩, hrest⟩
    · exact ⟨h.consistent, ⟨hframe, hsorted, hpreds⟩, hrest⟩

/-- A part of a walk that is careful goes through; one that leaves the maps inverse is careful. -/
theorem advance_spec (h : WalkInv F c w) :
    (w.Careful c → ∃ r, w.advance F c = .ok r ∧ AdvancedOk F r) ∧
    ∀ r, w.advance F c = .ok r → r.1.Inverse F → w.Careful c := by
  have hfree : (∃ r, w.advance F c = .ok r ∧ AdvancedOk F r) → w.Careful c →
      (w.Careful c → ∃ r, w.advance F c = .ok r ∧ AdvancedOk F r) ∧
      ∀ r, w.advance F c = .ok r → r.1.Inverse F → w.Careful c :=
    fun hok hcareful => ⟨fun _ => hok, fun _ _ _ => hcareful⟩
  cases hw : w.control with
  | enter pointer loc startBB skip =>
    simp only [Walk.advance, hw]
    obtain ⟨hok, hfail⟩ := enter_spec h hw
    exact ⟨hok, fun r hr _ => hfail r hr⟩
  | lookup pointer loc startBB skip =>
    refine hfree ⟨_, by simp only [Walk.advance, hw], lookup_spec h hw⟩ ?_
    simp only [Walk.Careful, hw]
  | iterate f =>
    refine hfree ?_ (by simp only [Walk.Careful, hw])
    simp only [Walk.advance, hw]
    exact iterate_spec h hw
  | transparent f BB =>
    refine hfree ⟨_, by simp only [Walk.advance, hw], transparent_spec h hw⟩ ?_
    simp only [Walk.Careful, hw]
  | failed f BB =>
    simp only [Walk.advance, hw]
    obtain ⟨c', w', hr, hok, hinv⟩ := failed_spec h hw
    refine ⟨fun hcareful => ⟨_, hr, hok hcareful⟩, fun r hr' hc => hinv ?_⟩
    rw [hr] at hr'
    cases hr'
    exact hc
  | preds f predList =>
    refine hfree ⟨_, by simp only [Walk.advance, hw], preds_spec h hw⟩ ?_
    simp only [Walk.Careful, hw]
  | ret failed =>
    refine hfree ⟨_, by simp only [Walk.advance, hw], ret_spec h hw⟩ ?_
    simp only [Walk.Careful, hw]

end Walk

/-! ## Runs -/

section Run

variable {S : Setting} {s : State S}

def StateInv (s : State S) : Prop :=
  match s.walk with
  | none => Consistent s.F s.caches ∧ AllSorted s.caches
  | some w => WalkInv s.F s.caches w

theorem StateInv.consistent (h : StateInv s) : Consistent s.F s.caches := by
  unfold StateInv at h
  split at h
  · exact h.1
  · exact h.consistent

theorem stateInv_initial (F : Function S.AA) : StateInv (State.initial F) := by
  refine ⟨consistent_empty, fun P => ?_⟩
  simp [State.initial, Caches.blocks, Caches.entries, Caches.info]

theorem StateInv.idle (h : StateInv s) (hw : s.walk = none) :
    Consistent s.F s.caches ∧ AllSorted s.caches := by
  simpa only [StateInv, hw] using h

theorem stateInv_of_idle {s' : State S} (hw : s'.walk = none) (hc : Consistent s'.F s'.caches)
    (hs : AllSorted s'.caches) : StateInv s' := by
  simp only [StateInv, hw]
  exact ⟨hc, hs⟩

/-- The step lemma: a careful step goes through and keeps the invariant, and a step that leaves the
maps inverse is careful. -/
theorem step_spec (h : StateInv s) {a : Action S} (ha : s.Enabled a) :
    (s.Careful a → ∃ s', s.step a = .ok s' ∧ StateInv s') ∧
    ∀ s', s.step a = .ok s' → s'.caches.Inverse s'.F → s.Careful a := by
  cases a with
  | getDependency QueryInst =>
    obtain ⟨hwalk, hQ⟩ := ha
    obtain ⟨hc, hs⟩ := h.idle hwalk
    obtain ⟨r, c', hget, hinfo, hok, hinv⟩ := getDependency_spec hc hQ
    have hs' : AllSorted c' := by
      simpa only [AllSorted, Caches.blocks, Caches.entries, Caches.info, hinfo] using hs
    simp only [State.step, hget]
    constructor
    · intro hcareful
      exact ⟨_, rfl, stateInv_of_idle hwalk (hok hcareful) hs'⟩
    · intro s' hs' hi
      cases hs'
      exact hinv hi
  | getNonLocalPointerDependency Loc isLoad FromBB =>
    obtain ⟨hc, hs⟩ := h.idle ha.1
    refine ⟨fun _ => ⟨_, rfl, hc, ?_, by simp⟩, fun _ _ _ => trivial⟩
    exact ⟨S.phi.getAddr_ofPtr Loc.ptr, hs, fun _ _ => rfl, by simp⟩
  | invalidateCachedPointerInfo Ptr =>
    obtain ⟨hc, hs⟩ := h.idle ha
    obtain ⟨hok, hfail⟩ := invalidateCachedPointerInfo_spec hc Ptr
    constructor
    · intro hcareful
      obtain ⟨c', hc', hforget⟩ := hok hcareful
      simp only [State.step, hc']
      exact ⟨_, rfl, stateInv_of_idle ha hforget.consistent (hforget.sorted hs)⟩
    · intro s' hs' _
      obtain ⟨c', hc', _⟩ := bind_eq_ok.mp hs'
      exact hfail c' hc'
  | removeInstruction RemInst F' =>
    obtain ⟨hwalk, _, hkeeps⟩ := ha
    obtain ⟨hc, hs⟩ := h.idle hwalk
    obtain ⟨hok, hfail⟩ := removeInstruction_spec (R := RemInst) hc hs
    constructor
    · intro hcareful
      obtain ⟨c', hc', hcons, hsorted⟩ := hok hcareful
      simp only [State.step, hc']
      exact ⟨_, rfl, stateInv_of_idle hwalk (hcons F' hkeeps) hsorted⟩
    · intro s' hs' _
      obtain ⟨c', hc', _⟩ := bind_eq_ok.mp hs'
      exact hfail c' hc'
  | advance =>
    obtain ⟨w, hw⟩ := Option.ne_none_iff_exists'.mp ha
    have hinv : WalkInv s.F s.caches w := by simpa only [StateInv, hw] using h
    obtain ⟨hok, hfail⟩ := advance_spec hinv
    simp only [State.step, hw]
    constructor
    · intro hcareful
      obtain ⟨⟨c', r⟩, hr, hadv⟩ := hok (hcareful w hw)
      rw [hr]
      cases r with
      | inl w' => exact ⟨_, rfl, hadv⟩
      | inr result => exact ⟨_, rfl, hadv⟩
    · intro s' hs' hi w' hw'
      rw [hw] at hw'
      cases hw'
      obtain ⟨⟨c', r⟩, hr, hs'⟩ := bind_eq_ok.mp hs'
      refine hfail (c', r) hr ?_
      cases r with
      | inl w' =>
        cases hs'
        exact hi
      | inr result =>
        cases hs'
        exact hi

/-- The run lemma. -/
theorem stateInv_of_careful {F : Function S.AA}
    (h : Relation.ReflTransGen State.CarefulStep (State.initial F) s) : StateInv s := by
  induction h with
  | refl => exact stateInv_initial F
  | tail _ hstep ih =>
    obtain ⟨a, ha, hcareful, hs⟩ := hstep
    obtain ⟨s', hs', hinv⟩ := (step_spec ih ha).1 hcareful
    rw [hs] at hs'
    cases hs'
    exact hinv

end Run

/-- In every run of careful steps the caches and the reverse maps are inverse in every state; every
further step goes through and keeps them so exactly when it is careful. -/
theorem caches_inverse {S : Setting} {F : Function S.AA} {s : State S}
    (h : Relation.ReflTransGen State.CarefulStep (State.initial F) s) :
    s.caches.Inverse s.F ∧ ∀ a, s.Enabled a →
      ((∃ s', s.step a = .ok s' ∧ s'.caches.Inverse s'.F) ↔ s.Careful a) := by
  have hinv := stateInv_of_careful h
  refine ⟨hinv.consistent.inverse, fun a ha => ⟨fun hx => ?_, fun hcareful => ?_⟩⟩
  · obtain ⟨s', hs', hi⟩ := hx
    exact (step_spec hinv ha).2 s' hs' hi
  · obtain ⟨s', hs', hinv'⟩ := (step_spec hinv ha).1 hcareful
    exact ⟨s', hs', hinv'.consistent.inverse⟩

/-! ## A query at the beginning of a block -/

namespace TwoBlocks

open Relation

/-- A store to the global 0 and a load from it, then a block that loads the global 1. -/
def inst (i : InstId) : MemInst :=
  match i with
  | 0 => { cls := .store .notAtomic false, mayWriteToMemory := true }
  | 1 => { cls := .load .notAtomic false false, mayReadFromMemory := true }
  | 3 => { cls := .load .notAtomic false false, mayReadFromMemory := true }
  | _ => { cls := .other, isTerminator := true }

def location (i : InstId) : Location :=
  { ptr := some (.global (if i = 3 then 1 else 0)), size := 4 }

/-- Two globals do not alias. -/
def AA : AliasAnalysis where
  inst := inst
  isPointerTy v := match v with
    | .global _ => true
    | _ => false
  getLocation := location
  aliasLoc l l' := if l.ptr = l'.ptr then .mustAlias else .noAlias
  isMustAlias l l' := l.ptr = l'.ptr
  aliasPtr v v' := if some v = v' then .mustAlias else .noAlias
  isMustAliasPtr v v' := some v = v'
  getModRefInfo i l := if i = 0 ∧ l.ptr = (location 0).ptr then .mod else .noModRef
  getModRefInfoCS _ _ := .noModRef
  callCapturesBefore _ _ := .noModRef
  pointsToConstantMemory _ := false
  onlyReadsMemory _ := false
  isIdenticalToWhenDefined i j := i = j
  getUnderlyingObject v := v
  getPointerBaseWithConstantOffset v := (v, 0)
  getZExtValue _ := 0
  fitsInLegalInteger := none
  sanitizeThread := false
  sanitizeAddress := false

def insts (b : BlockId) : List InstId :=
  if b = 0 then [0, 1, 2] else if b = 1 then [3, 4] else []

def getParent (i : InstId) : Option BlockId :=
  if i ≤ 2 then some 0 else if i ≤ 4 then some 1 else none

theorem mem_insts_iff (i b : Nat) : i ∈ insts b ↔ b = 0 ∧ i ≤ 2 ∨ b = 1 ∧ 2 < i ∧ i ≤ 4 := by
  by_cases h0 : b = 0
  · simp [insts, h0]
    omega
  · by_cases h1 : b = 1
    · simp [insts, h1]
      omega
    · simp [insts, h0, h1]

theorem getParent_iff (i b : Nat) : getParent i = some b ↔ i ∈ insts b := by
  rw [mem_insts_iff, getParent]
  by_cases h2 : i ≤ 2
  · rw [if_pos h2, Option.some_inj]
    show 0 = b ↔ _
    omega
  · rw [if_neg h2]
    by_cases h4 : i ≤ 4
    · rw [if_pos h4, Option.some_inj]
      show 1 = b ↔ _
      omega
    · rw [if_neg h4]
      simp
      omega

def F : Function AA where
  entryBlock := 0
  insts := insts
  getParent := getParent
  getParent_iff := getParent_iff
  nodup b := by
    unfold insts
    split_ifs <;> decide
  terminated b pre i post h := by
    unfold insts at h
    split_ifs at h
    · rcases pre with _ | ⟨x, _ | ⟨y, _ | ⟨z, pre⟩⟩⟩ <;> simp at h
      · obtain ⟨rfl, rfl⟩ := h
        decide
      · obtain ⟨_, rfl, rfl⟩ := h
        decide
      · obtain ⟨_, _, rfl, rfl⟩ := h
        decide
    · rcases pre with _ | ⟨x, _ | ⟨y, pre⟩⟩ <;> simp at h
      · obtain ⟨rfl, rfl⟩ := h
        decide
      · obtain ⟨_, rfl, rfl⟩ := h
        decide
    · simp at h

/-- Pointers are never translated. -/
def S : Setting where
  AA := AA
  DT := none
  getPreds b := if b = 1 then [0] else []
  phi :=
    { Addr := Option Value
      ofPtr := id
      getAddr := id
      getAddr_ofPtr := fun _ => rfl
      needsPHITranslationFromBlock := fun _ _ => false
      isPotentiallyPHITranslatable := fun _ => true
      pHITranslateValue := fun v _ _ => v }

def start : State S := State.initial F

/-- A query for the load of the global 1, with a location of `size` bytes. -/
def query (size : Nat) : Action S :=
  .getNonLocalPointerDependency { ptr := some (.global 1), size } true 1

/-- Execute `n` parts of the walk that is on. -/
def walkOn : Nat → State S → Except Fault (State S)
  | 0, s => .ok s
  | n + 1, s => if s.walk.isSome then s.step .advance >>= walkOn n else .ok s

theorem reachable_walkOn {s s' : State S} {n : Nat} (h : ReflTransGen State.Step start s)
    (hs : walkOn n s = .ok s') : ReflTransGen State.Step start s' := by
  induction n generalizing s with
  | zero =>
    cases hs
    exact h
  | succ n ih =>
    unfold walkOn at hs
    split at hs
    next hwalk =>
      obtain ⟨t, ht, hs⟩ := bind_eq_ok.mp hs
      have hstep : State.Step s t := ⟨.advance, fun hnone => by simp [hnone] at hwalk, ht⟩
      exact ih (h.tail hstep) hs
    next =>
      cases hs
      exact h

/-- The query with 4 bytes, up to its end. -/
def queried : Except Fault (State S) := start.step (query 4) >>= walkOn 7

theorem reachable_queried {s : State S} (h : queried = .ok s) :
    ReflTransGen State.Step start s := by
  obtain ⟨t, ht, hs⟩ := bind_eq_ok.mp h
  have hstep : State.Step start t := ⟨query 4, ⟨rfl, .global 1, rfl, rfl⟩, ht⟩
  exact reachable_walkOn (.single hstep) hs

end TwoBlocks

open Relation TwoBlocks

/-- The query at the first instruction of a block registers a constant. -/
theorem getDependency_registers_marker :
    ∃ s, start.step (.getDependency 3) = .ok s ∧
      (s.caches.reverseLocalDeps (.other .nonLocal)).isSome :=
  ⟨_, rfl, by decide⟩

/-- The walk leaves a constant in the entry of block 0, which was never registered. A query with
more bytes asks for its removal. -/
theorem queried_cleared : ∃ s s', queried = .ok s ∧ s.walk = none ∧ s.step (query 8) = .ok s' ∧
    s'.walk.isSome ∧ s'.step .advance = .error (.reverseMap .noSet) :=
  ⟨_, _, rfl, rfl, rfl, rfl, rfl⟩

/-- The invalidation of the pointer follows the constant. -/
theorem queried_invalidated : ∃ s, queried = .ok s ∧ s.walk = none ∧
    s.step (.invalidateCachedPointerInfo (.global 1)) = .error .instructionInvalidated :=
  ⟨_, rfl, rfl, rfl⟩

/-- None of the three holds in every run: that the maps are inverse, that a pair to be removed is
found, that a constant is never followed. -/
theorem caches_not_inverse :
    (¬ ∀ s, ReflTransGen State.Step start s → s.caches.Inverse s.F) ∧
    (¬ ∀ s, ReflTransGen State.Step start s → ∀ a, s.Enabled a →
      ∀ f, s.step a ≠ .error (.reverseMap f)) ∧
    ¬ ∀ s, ReflTransGen State.Step start s → ∀ a, s.Enabled a →
      s.step a ≠ .error .instructionInvalidated := by
  refine ⟨fun h => ?_, fun h => ?_, fun h => ?_⟩
  · obtain ⟨s, hs, hkey⟩ := getDependency_registers_marker
    have hinv := h s (.single ⟨.getDependency 3, ⟨rfl, rfl⟩, hs⟩)
    obtain ⟨i, hi, _⟩ := hinv.local_key _ hkey
    cases hi
  · obtain ⟨s, s', hs, hwalk, hstep, hwalk', hfault⟩ := queried_cleared
    have hs' : State.Step s s' := ⟨query 8, ⟨hwalk, .global 1, rfl, rfl⟩, hstep⟩
    have henabled : s'.Enabled .advance := fun hnone => by simp [hnone] at hwalk'
    exact h s' ((reachable_queried hs).tail hs') .advance henabled _ hfault
  · obtain ⟨s, hs, hwalk, hfault⟩ := queried_invalidated
    exact h s (reachable_queried hs) (.invalidateCachedPointerInfo (.global 1)) hwalk hfault

/-- The load of block 0 depends on the store, and stays registered with it. -/
theorem caches_inverse_load : ∃ s, start.step (.getDependency 1) = .ok s ∧
    s.caches.localDeps 1 = some (.defn 0) ∧ s.caches.Inverse s.F := by
  refine ⟨_, rfl, rfl, ?_⟩
  have hmeets : MeetsLocal F 1 1 0 := by
    show _ ∧ Meets (isDbgInfo AA) (pointerVerdict AA (location 1) true false) blockScanLimit [0]
    decide
  have hstep : State.CarefulStep start _ :=
    ⟨.getDependency 1, ⟨rfl, rfl⟩, ⟨0, rfl, hmeets⟩, rfl⟩
  exact (caches_inverse (.single hstep)).1

end FlowDep
end DepTaint
