import DepTaint.ScanAgreement

/-!
# LocalAgreement

The cached local dependences agree with scans made afresh.

`LocalInv` says that the reverse map holds what `getInst` of every cached result is, constants
included, and that every cached result is faithful to the function as it is now.

* `getDependency_agrees`: a query returns, and what it returns is the full dependence or `Unknown`.
* `removeInstruction_locals`: a removal keeps the invariant, for the function without the
  instruction.
* `advance_locals`: a walk for a pointer leaves the local results alone.
-/

namespace DepTaint
namespace FlowDep

section Locals

variable {AA : AliasAnalysis} {F : Function AA} {c c' : Caches} {Q : InstId} {BB : BlockId}
  {exact : Prop}

/-! ## The full dependence -/

/-- What `getDependency` scans with, for an instruction that has a location or is a call. -/
def localScanner (AA : AliasAnalysis) (QueryInst : InstId) : Option Scanner :=
  let (MR, MemLoc) := getLocation AA QueryInst
  let cls := (AA.inst QueryInst).cls
  if MemLoc.ptr.isSome then
    let isLoad := !MR.hasMod || cls = .call (some .lifetimeStart)
    some ⟨isDbgInfo AA,
      pointerVerdict AA MemLoc isLoad (isInvariantLoad AA isLoad (some QueryInst))⟩
  else
    match cls with
    | .call _ | .invoke =>
      some ⟨fun _ => false, callSiteVerdict AA QueryInst (AA.onlyReadsMemory QueryInst)⟩
    | _ => none

/-- What the query would return if no scan were cut off and nothing were cached. -/
def fullDependency (F : Function AA) (QueryInst : InstId) (BB : BlockId) : FlowDepResult :=
  match localScanner AA QueryInst with
  | some k => k.full F BB (some QueryInst)
  | none => if (F.insts BB).head? = some QueryInst then F.atBegin BB else .other .unknown

theorem localDependency_eq (F : Function AA) (Q ScanPos : InstId) (BB : BlockId) :
    localDependency F Q ScanPos BB =
      if (F.insts BB).head? = some Q then F.atBegin BB
      else
        match localScanner AA Q with
        | some k => k.scanBlock F BB (some ScanPos)
        | none => .other .unknown := by
  unfold localDependency localScanner
  split
  · rfl
  · dsimp only
    split
    · rfl
    · cases (AA.inst Q).cls <;> rfl

theorem above_head (h : (F.insts BB).head? = some Q) : F.above BB (some Q) = [] := by
  cases hl : F.insts BB with
  | nil =>
    rw [hl] at h
    cases h
  | cons x l =>
    rw [hl, List.head?_cons, Option.some.injEq] at h
    rw [Function.above, hl, List.takeWhile_cons_of_neg (by simpa using h)]
    rfl

/-- The cached result `r` of `Q`, an instruction of `BB`. -/
def LocalFaithful (F : Function AA) (BB : BlockId) (exact : Prop) (Q : InstId)
    (r : FlowDepResult) : Prop :=
  match localScanner AA Q with
  | some k => Faithful k F BB (some Q) exact r
  | none => r.isDirty = false ∧ Agrees False r (fullDependency F Q BB)

theorem LocalFaithful.agrees {r : FlowDepResult} (h : LocalFaithful F BB exact Q r)
    (hr : r.isDirty = false) :
    Agrees (exact ∧ (localScanner AA Q).isSome) r (fullDependency F Q BB) := by
  unfold LocalFaithful at h
  unfold fullDependency at h ⊢
  cases hk : localScanner AA Q with
  | some k =>
    rw [hk] at h
    exact (h.agrees hr).imp_right fun hu => ⟨hu.1, fun hx => hu.2 hx.1⟩
  | none =>
    rw [hk] at h
    exact h.2.imp_right fun hu => ⟨hu.1, fun hx => by simp at hx⟩

/-- A scan from the position of a dirty result, or from the query itself. -/
theorem localDependency_faithful {ScanPos : InstId} (hshort : exact → Short F BB)
    (hpos : ScanPos = Q ∨ LocalFaithful F BB exact Q (.dirty (some ScanPos))) :
    LocalFaithful F BB exact Q (localDependency F Q ScanPos BB) ∧
      (localDependency F Q ScanPos BB).isDirty = false := by
  obtain ⟨o, ho⟩ := FlowDepResult.isMarker_iff.mp (F.atBegin_isMarker BB)
  rw [localDependency_eq]
  unfold LocalFaithful at hpos ⊢
  unfold fullDependency
  cases hk : localScanner AA Q with
  | none =>
    dsimp only
    split
    · exact ⟨⟨by rw [ho]; rfl, .inl rfl⟩, by rw [ho]; rfl⟩
    · exact ⟨⟨rfl, .inl rfl⟩, rfl⟩
  | some k =>
    rw [hk] at hpos
    dsimp only
    split
    · rename_i hhead
      have hfull : k.full F BB (some Q) = F.atBegin BB := by
        rw [Scanner.full, above_head hhead, find_nil]
      have hdirty : (F.atBegin BB).isDirty = false := by
        rw [ho]
        rfl
      exact ⟨faithful_of_agrees hdirty (.inl hfull.symm), hdirty⟩
    · have hres : Resumes k F BB (some Q) (some ScanPos) := by
        rcases hpos with rfl | hpos
        · exact .inl rfl
        · exact hpos
      have hdirty : (k.scanBlock F BB (some ScanPos)).isDirty = false :=
        scan_ne_dirty (F.atBegin_isMarker BB) _ _
      exact ⟨faithful_of_agrees hdirty (hres.rescan hshort), hdirty⟩

/-- The result after the removal of another instruction. -/
theorem LocalFaithful.removes {F' : Function AA} {R : InstId} {r : FlowDepResult}
    (h : LocalFaithful F BB exact Q r) (hF : F.Removes F' R) (hQ : Q ∈ F.insts BB) (hR : Q ≠ R) :
    LocalFaithful F' BB exact Q (if r.Names R then newDirtyVal F R else r) := by
  unfold LocalFaithful at h ⊢
  cases hk : localScanner AA Q with
  | some k =>
    rw [hk] at h
    refine h.removes hF ?_ ?_
    · intro hx
      exact hR (Option.some.inj hx)
    · intro Q' hQ'
      cases hQ'
      exact hQ
  | none =>
    rw [hk] at h
    obtain ⟨hr, hagrees⟩ := h
    unfold fullDependency at hagrees ⊢
    rw [hk] at hagrees ⊢
    dsimp only at hagrees ⊢
    obtain ⟨o, ho⟩ := FlowDepResult.isMarker_iff.mp (F.atBegin_isMarker BB)
    have hmarker : ∃ o, r = .other o := by
      rcases hagrees with rfl | ⟨rfl, _⟩
      · split
        · exact ⟨o, ho⟩
        · exact ⟨_, rfl⟩
      · exact ⟨_, rfl⟩
    obtain ⟨o', rfl⟩ := hmarker
    rw [if_neg (by simp [FlowDepResult.Names])]
    refine ⟨rfl, ?_⟩
    by_cases hhead : (F.insts BB).head? = some Q
    · have hhead' : (F'.insts BB).head? = some Q := by
        rw [hF.insts]
        cases hl : F.insts BB with
        | nil =>
          rw [hl] at hhead
          cases hhead
        | cons x l =>
          rw [hl, List.head?_cons, Option.some.injEq] at hhead
          rw [hhead, List.filter_cons_of_pos (by simpa using hR), List.head?_cons]
      rw [if_pos hhead] at hagrees
      rw [if_pos hhead', hF.atBegin]
      exact hagrees
    · rw [if_neg hhead] at hagrees
      rcases hagrees with hu | ⟨hu, _⟩
      · exact .inr ⟨hu, not_false⟩
      · exact .inr ⟨hu, not_false⟩

/-! ## The invariant -/

/-- The invariant of the local results; in the blocks that `exact` holds of no scan is cut off. -/
structure LocalInv (exact : BlockId → Prop) (F : Function AA) (c : Caches) : Prop where
  rev : c.reverseLocalDeps.Represents fun Q p => ∃ r, c.localDeps Q = some r ∧ r.getInst = some p
  faithful : ∀ Q r, c.localDeps Q = some r →
    ∃ BB, Q ∈ F.insts BB ∧ LocalFaithful F BB (exact BB) Q r

variable {short : BlockId → Prop}

theorem localInv_empty : LocalInv short F {} where
  rev := ReverseMap.represents_empty.congr fun Q p => by simp
  faithful := by simp

theorem LocalInv.congr (h : LocalInv short F c) (hl : c'.localDeps = c.localDeps)
    (hr : c'.reverseLocalDeps = c.reverseLocalDeps) : LocalInv short F c' where
  rev := by simpa only [hl, hr] using h.rev
  faithful := by simpa only [hl] using h.faithful

/-- A new result of `Q`, once the reverse map holds those of the other queries. -/
theorem LocalInv.put (h : LocalInv short F c) {m : ReverseMap InstPtr InstId}
    (hm : m.Represents fun Q' p => (∃ r, c.localDeps Q' = some r ∧ r.getInst = some p) ∧ Q' ≠ Q)
    {r : FlowDepResult} (hQ : Q ∈ F.insts BB) (hr : LocalFaithful F BB (short BB) Q r) :
    LocalInv short F { c with
      localDeps := Function.update c.localDeps Q (some r)
      reverseLocalDeps := match r.getInst with
        | none => m
        | some I => m.insert I Q } := by
  refine ⟨?_, fun Q' r' hr' => ?_⟩
  · have hother : ∀ Q' p, Q' ≠ Q →
        ((∃ r', Function.update c.localDeps Q (some r) Q' = some r' ∧ r'.getInst = some p) ↔
          ∃ r', c.localDeps Q' = some r' ∧ r'.getInst = some p) := by
      intro Q' p hne
      rw [Function.update_of_ne hne]
    cases hget : r.getInst with
    | none =>
      refine hm.congr fun Q' p => ?_
      by_cases hQQ : Q' = Q
      · subst hQQ
        simp [hget]
      · simp only [hother Q' p hQQ, ne_eq, hQQ, not_false_eq_true, and_true]
    | some I =>
      refine hm.insert.congr fun Q' p => ?_
      by_cases hQQ : Q' = Q
      · subst hQQ
        simp [hget, eq_comm]
      · simp only [hother Q' p hQQ, ne_eq, hQQ, not_false_eq_true, and_true, and_false, or_false]
  · by_cases hQQ : Q' = Q
    · subst hQQ
      obtain rfl : r = r' := by simpa using hr'
      exact ⟨BB, hQ, hr⟩
    · simp only [Function.update_of_ne hQQ] at hr'
      exact h.faithful Q' r' hr'

/-- A query returns the full dependence, or `Unknown`, and keeps the invariant. -/
theorem getDependency_agrees (h : LocalInv short F c) (hshort : ∀ b, short b → Short F b)
    (hQ : Q ∈ F.insts BB) : ∃ r c', getDependency F c Q = .ok (r, c') ∧ LocalInv short F c' ∧
      Agrees (short BB ∧ (localScanner AA Q).isSome) r (fullDependency F Q BB) ∧
      r.isDirty = false := by
  have hparent : F.getParent Q = some BB := (F.getParent_iff Q BB).mpr hQ
  -- what a scan returns and remembers
  have hscan : ∀ (m : ReverseMap InstPtr InstId) (pos : InstId),
      m.Represents (fun Q' p => (∃ r, c.localDeps Q' = some r ∧ r.getInst = some p) ∧ Q' ≠ Q) →
      (pos = Q ∨ LocalFaithful F BB (short BB) Q (.dirty (some pos))) →
      LocalInv short F (scanLocal F c m Q pos BB).2 ∧
        Agrees (short BB ∧ (localScanner AA Q).isSome) (scanLocal F c m Q pos BB).1
          (fullDependency F Q BB) ∧ (scanLocal F c m Q pos BB).1.isDirty = false := by
    intro m pos hm hpos
    obtain ⟨hfaithful, hdirty⟩ := localDependency_faithful (hshort BB) hpos
    exact ⟨h.put hm hQ hfaithful, hfaithful.agrees hdirty, hdirty⟩
  have hdone : ∀ r, c.localDeps Q = some r → r.isDirty = false →
      Agrees (short BB ∧ (localScanner AA Q).isSome) r (fullDependency F Q BB) := by
    intro r hr hdirty
    obtain ⟨b, hb, hfaithful⟩ := h.faithful Q r hr
    have hbb := (F.getParent_iff Q b).mpr hb
    rw [hparent] at hbb
    cases hbb
    exact hfaithful.agrees hdirty
  unfold getDependency
  cases hc : c.localDeps Q with
  | none =>
    have hm : c.reverseLocalDeps.Represents
        fun Q' p => (∃ r, c.localDeps Q' = some r ∧ r.getInst = some p) ∧ Q' ≠ Q :=
      h.rev.congr fun Q' p => by
        refine ⟨fun hr => ⟨hr, fun hQ' => ?_⟩, And.left⟩
        obtain ⟨r, hr, _⟩ := hr
        rw [hQ', hc] at hr
        cases hr
    have hres := hscan c.reverseLocalDeps Q hm (.inl rfl)
    exact ⟨_, _, by simp only [Option.getD_none, hparent]; rfl, hres⟩
  | some r =>
    cases r with
    | dirty pos =>
      obtain ⟨b, hb, hfaithful⟩ := h.faithful Q _ hc
      have hbb := (F.getParent_iff Q b).mpr hb
      rw [hparent] at hbb
      cases hbb
      cases pos with
      | none =>
        -- a scan of the query never starts at the end of the block
        exfalso
        unfold LocalFaithful at hfaithful
        split at hfaithful
        · rcases hfaithful with hx | ⟨_, _, _, hx, _⟩
          · cases hx
          · cases hx
        · cases hfaithful.1
      | some i =>
        obtain ⟨m, hrem, hm⟩ := h.rev.remove (t := .inst i) (k := Q) ⟨_, hc, rfl⟩
        have hm : m.Represents
            fun Q' p => (∃ r, c.localDeps Q' = some r ∧ r.getInst = some p) ∧ Q' ≠ Q :=
          hm.congr fun Q' p => by
            refine and_congr_right fun hr => ⟨fun hne hQ' => hne ⟨?_, hQ'⟩, fun hne hx => hne hx.2⟩
            obtain ⟨r, hr, hp⟩ := hr
            rw [hQ', hc] at hr
            cases hr
            simpa [FlowDepResult.getInst, eq_comm] using hp
        have hres := hscan m i hm (.inr hfaithful)
        refine ⟨_, _, ?_, hres⟩
        simp only [Option.getD_some, removeFromReverseMap_ok hrem, hparent]
        rfl
    | clobber i => exact ⟨_, c, rfl, h, hdone _ hc rfl, rfl⟩
    | defn i => exact ⟨_, c, rfl, h, hdone _ hc rfl, rfl⟩
    | other o => exact ⟨_, c, rfl, h, hdone _ hc rfl, rfl⟩

/-! ## removeInstruction -/

theorem removeLocalDep_locals (h : LocalInv short F c) (R : InstId) :
    ∃ c', removeLocalDep c R = .ok c' ∧ LocalInv short F c' ∧ c'.localDeps R = none ∧
      c'.nonLocalPointerDeps = c.nonLocalPointerDeps ∧
      c'.reverseNonLocalPtrDeps = c.reverseNonLocalPtrDeps := by
  unfold removeLocalDep
  cases hc : c.localDeps R with
  | none => exact ⟨c, rfl, h, hc, rfl, rfl⟩
  | some r =>
    -- the others keep their results
    have hput : ∀ m : ReverseMap InstPtr InstId,
        m.Represents (fun Q p => (∃ r, c.localDeps Q = some r ∧ r.getInst = some p) ∧ Q ≠ R) →
        LocalInv short F { c with
          localDeps := Function.update c.localDeps R none, reverseLocalDeps := m } := by
      intro m hm
      refine ⟨hm.congr fun Q p => ?_, fun Q r' hr' => ?_⟩
      · by_cases hQ : Q = R
        · simp [hQ]
        · simp [hQ]
      · by_cases hQ : Q = R
        · subst hQ
          simp at hr'
        · simp only [Function.update_of_ne hQ] at hr'
          exact h.faithful Q r' hr'
    cases hget : r.getInst with
    | none =>
      refine ⟨_, by simp only [hget]; rfl, hput c.reverseLocalDeps (h.rev.congr fun Q p => ?_),
        by simp, rfl, rfl⟩
      refine ⟨fun hr => ⟨hr, ?_⟩, And.left⟩
      rintro rfl
      obtain ⟨r', hr', hp⟩ := hr
      rw [hc] at hr'
      cases hr'
      rw [hget] at hp
      cases hp
    | some I =>
      obtain ⟨m, hrem, hm⟩ := h.rev.remove (t := I) (k := R) ⟨r, hc, hget⟩
      refine ⟨_, by simp only [hget, removeFromReverseMap_ok hrem]; rfl,
        hput m (hm.congr fun Q p => ?_), by simp, rfl, rfl⟩
      refine and_congr_right fun hr => ⟨fun hne hQ => hne ⟨?_, hQ⟩, fun hne hx => hne hx.2⟩
      obtain ⟨r', hr', hp⟩ := hr
      rw [hQ, hc] at hr'
      cases hr'
      rw [hget] at hp
      exact (Option.some.inj hp).symm

/-- The local results after the removal of `R`. -/
def dirtiedLocal (F : Function AA) (R : InstId) (r : FlowDepResult) : FlowDepResult :=
  if r.Names R then newDirtyVal F R else r

/-- The query that a faithful result belongs to stands below what it names. -/
theorem LocalFaithful.newDirtyVal {R : InstId} {r : FlowDepResult}
    (h : LocalFaithful F BB exact Q r) (hQ : Q ∈ F.insts BB) (hR : r.Names R) (hne : Q ≠ R) :
    ∃ J, newDirtyVal F R = .dirty (some J) ∧ J ≠ R := by
  unfold LocalFaithful at h
  split at h
  · rcases h.names hR with hx | ⟨T, A, habove, _⟩
    · exact absurd (Option.some.inj hx).symm hne
    · obtain ⟨pos, hpos, _, hposR, hcase⟩ := newDirtyVal_above habove (fun Q' hQ' => by
        cases hQ'
        exact hQ)
      obtain ⟨J, rfl⟩ : ∃ J, pos = some J := by
        rcases hcase with rfl | ⟨j, _, rfl, _⟩
        · exact ⟨Q, rfl⟩
        · exact ⟨j, rfl⟩
      exact ⟨J, hpos, fun hx => hposR (by rw [hx])⟩
  · obtain ⟨hdirty, hagrees⟩ := h
    exfalso
    obtain ⟨o, ho⟩ := FlowDepResult.isMarker_iff.mp (F.atBegin_isMarker BB)
    unfold fullDependency at hagrees
    simp only [*] at hagrees
    rcases hagrees with rfl | ⟨rfl, _⟩
    · split at hR
      · simp [FlowDepResult.Names] at hR
      · simp [FlowDepResult.Names] at hR
    · simp [FlowDepResult.Names] at hR

theorem dirtyLocalDeps_locals (h : LocalInv short F c) {R : InstId} (hnone : c.localDeps R = none) :
    ∃ c', dirtyLocalDeps F c R = .ok c' ∧
      (∀ Q, c'.localDeps Q = (c.localDeps Q).map (dirtiedLocal F R)) ∧
      (c'.reverseLocalDeps.Represents fun Q p => ∃ r, c'.localDeps Q = some r ∧
        r.getInst = some p) ∧
      c'.nonLocalPointerDeps = c.nonLocalPointerDeps ∧
      c'.reverseNonLocalPtrDeps = c.reverseNonLocalPtrDeps := by
  have hsame : ∀ r : FlowDepResult, ¬ r.Names R → dirtiedLocal F R r = r :=
    fun r hr => if_neg hr
  cases hrev : c.reverseLocalDeps (.inst R) with
  | none =>
    refine ⟨c, by simp only [dirtyLocalDeps, hrev], fun Q => ?_, h.rev, rfl, rfl⟩
    cases hc : c.localDeps Q with
    | none => rfl
    | some r =>
      have hr : ¬ r.Names R := fun hi =>
        h.rev.not_of_none hrev ⟨r, hc, FlowDepResult.getInst_eq_inst_iff.mpr hi⟩
      rw [Option.map_some, hsame r hr]
  | some ReverseDeps =>
    have hmem : ∀ Q, Q ∈ ReverseDeps ↔ ∃ r, c.localDeps Q = some r ∧ r.Names R := by
      intro Q
      rw [h.rev.mem_set_iff hrev]
      simp only [FlowDepResult.getInst_eq_inst_iff]
    have hRnot : R ∉ ReverseDeps := by
      rw [hmem, hnone]
      simp
    have hne := (h.rev.tidy _ _ hrev).1
    obtain ⟨Q0, hQ0⟩ := List.exists_mem_of_ne_nil _ hne
    obtain ⟨r0, hr0, hi0⟩ := (hmem Q0).mp hQ0
    obtain ⟨b0, hb0, hf0⟩ := h.faithful Q0 r0 hr0
    obtain ⟨J, hJ, hJR⟩ := hf0.newDirtyVal hb0 hi0 (fun hx => hRnot (hx ▸ hQ0))
    have hdeps : ∀ Q, (if Q ∈ ReverseDeps then some (FlowDep.newDirtyVal F R) else c.localDeps Q) =
        (c.localDeps Q).map (dirtiedLocal F R) := by
      intro Q
      by_cases hQ : Q ∈ ReverseDeps
      · obtain ⟨r, hr, hi⟩ := (hmem Q).mp hQ
        rw [if_pos hQ, hr, Option.map_some, dirtiedLocal, if_pos hi]
      · rw [if_neg hQ]
        cases hc : c.localDeps Q with
        | none => rfl
        | some r => rw [Option.map_some, hsame r fun hi => hQ ((hmem Q).mpr ⟨r, hc, hi⟩)]
    rw [hJ] at hdeps
    refine ⟨_, dirtyLocalDeps_some hrev hne hRnot hJ, hdeps, ?_, rfl, rfl⟩
    refine ((h.rev.erase (t := .inst R)).insertAll _).congr fun Q p => ?_
    simp only [hdeps, List.mem_reverse, List.mem_map, Prod.mk.injEq, Option.map_eq_some_iff]
    constructor
    · intro hx
      rcases hx with ⟨⟨r, hr, hp⟩, hne⟩ | ⟨Q', hQ', rfl, rfl⟩
      · refine ⟨r, ⟨r, hr, hsame r fun hi => hne ?_⟩, hp⟩
        rw [FlowDepResult.getInst_eq_inst_iff.mpr hi] at hp
        exact (Option.some.inj hp).symm
      · obtain ⟨r, hr, hi⟩ := (hmem Q').mp hQ'
        exact ⟨_, ⟨r, hr, rfl⟩, by rw [dirtiedLocal, if_pos hi, hJ]; rfl⟩
    · rintro ⟨_, ⟨r, hr, rfl⟩, hp⟩
      by_cases hi : r.Names R
      · rw [dirtiedLocal, if_pos hi, hJ] at hp
        exact .inr ⟨Q, (hmem Q).mpr ⟨r, hr, hi⟩, Option.some.inj hp, rfl⟩
      · rw [hsame r hi] at hp
        refine .inl ⟨⟨r, hr, hp⟩, ?_⟩
        rintro rfl
        exact hi (FlowDepResult.getInst_eq_inst_iff.mp hp)

/-- The local results are those of the other caches. -/
def SameLocals (c c' : Caches) : Prop :=
  c'.localDeps = c.localDeps ∧ c'.reverseLocalDeps = c.reverseLocalDeps

theorem SameLocals.refl (c : Caches) : SameLocals c c := ⟨rfl, rfl⟩

theorem SameLocals.trans {c1 c2 : Caches} (h1 : SameLocals c c1) (h2 : SameLocals c1 c2) :
    SameLocals c c2 := ⟨h2.1.trans h1.1, h2.2.trans h1.2⟩

theorem LocalInv.same (h : LocalInv short F c) (hs : SameLocals c c') : LocalInv short F c' :=
  h.congr hs.1 hs.2

theorem removeCached_locals {P : ValueIsLoadPair}
    (h : removeCachedNonLocalPointerDependencies F c P = .ok c') : SameLocals c c' := by
  unfold removeCachedNonLocalPointerDependencies at h
  split at h
  · cases h
    exact .refl c
  · obtain ⟨m, _, h⟩ := bind_eq_ok.mp h
    cases h
    exact ⟨rfl, rfl⟩

theorem invalidate_locals {Ptr : Value} (h : invalidateCachedPointerInfo F c Ptr = .ok c') :
    SameLocals c c' := by
  unfold invalidateCachedPointerInfo at h
  split at h
  · obtain ⟨c1, h1, h2⟩ := bind_eq_ok.mp h
    exact (removeCached_locals h1).trans (removeCached_locals h2)
  · cases h
    exact .refl c

theorem dirtyPtrDeps_locals (c : Caches) (R : InstId) : SameLocals c (dirtyPtrDeps F c R) := by
  unfold dirtyPtrDeps
  split
  · exact .refl c
  · rename_i Set _
    have hfold : SameLocals c (Set.foldl (dirtyPtrDep F R) (c, [])).1 :=
      foldl_preserves (P := fun s : Caches × _ => SameLocals c s.1) (.refl c) fun s P _ hs => hs
    exact hfold

/-- The removal of `R` keeps the invariant, for the function without it. -/
theorem removeInstruction_locals (h : LocalInv short F c) {R : InstId} {F' : Function AA}
    (hF : F.Removes F' R) (hc : removeInstruction F c R = .ok c') :
    LocalInv short F' c' ∧ c'.localDeps R = none ∧
      ∀ Q r, c'.localDeps Q = some r → ¬ r.Names R := by
  obtain ⟨c1, hc1, hc⟩ := bind_eq_ok.mp hc
  obtain ⟨c2, hc2, hc⟩ := bind_eq_ok.mp hc
  obtain ⟨c3, hc3, hc⟩ := bind_eq_ok.mp hc
  cases hc
  obtain ⟨c1', hc1', h1, hnone1, _, _⟩ := removeLocalDep_locals h R
  rw [hc1] at hc1'
  cases hc1'
  have hsame := invalidate_locals hc2
  have h2 := h1.same hsame
  have hnone2 : c2.localDeps R = none := by rw [hsame.1, hnone1]
  obtain ⟨c3', hc3', hdeps, hrev, _, _⟩ := dirtyLocalDeps_locals h2 hnone2
  rw [hc3] at hc3'
  cases hc3'
  -- what the local results are faithful to
  have hfaithful : ∀ Q r, c3.localDeps Q = some r →
      (∃ BB, Q ∈ F'.insts BB ∧ LocalFaithful F' BB (short BB) Q r) ∧ ¬ r.Names R := by
    intro Q r hr
    rw [hdeps, Option.map_eq_some_iff] at hr
    obtain ⟨r2, hr2, rfl⟩ := hr
    have hQR : Q ≠ R := by
      rintro rfl
      rw [hnone2] at hr2
      cases hr2
    obtain ⟨BB, hBB, hf⟩ := h2.faithful Q r2 hr2
    refine ⟨⟨BB, hF.mem_insts.mpr ⟨hBB, hQR⟩, hf.removes hF hBB hQR⟩, ?_⟩
    unfold dirtiedLocal
    split
    · rename_i hi
      obtain ⟨J, hJ, hJR⟩ := hf.newDirtyVal hBB hi hQR
      rw [hJ]
      intro hx
      exact hJR (hx.unique (.inl rfl)).symm
    · assumption
  have hlast := dirtyPtrDeps_locals (F := F) c3 R
  refine ⟨(LocalInv.mk hrev fun Q r hr => (hfaithful Q r hr).1).same hlast, ?_, fun Q r hr => ?_⟩
  · rw [hlast.1, hdeps, hnone2]
    rfl
  · rw [hlast.1] at hr
    exact (hfaithful Q r hr).2

end Locals

/-! ## Walks -/

section Walks

variable {S : Setting} {F : Function S.AA} {c c' : Caches} {w : Walk S} {P : ValueIsLoadPair}

theorem clearInfo_locals {info : NonLocalPointerInfo} (h : clearInfo c P info = .ok c') :
    SameLocals c c' := by
  obtain ⟨m, _, h⟩ := bind_eq_ok.mp h
  cases h
  exact ⟨rfl, rfl⟩

theorem reconcileTBAATag_locals {loc : Location} {r : Caches × Option Location}
    (h : reconcileTBAATag c P loc = .ok r) : SameLocals c r.1 := by
  unfold reconcileTBAATag at h
  dsimp only at h
  split at h
  · split at h
    · obtain ⟨c1, hc1, h⟩ := bind_eq_ok.mp h
      cases h
      exact clearInfo_locals hc1
    · cases h
      exact .refl c
  · cases h
    exact .refl c

theorem reconcile_locals {loc : Location} {r : Caches × Option Location}
    (h : reconcile c P loc = .ok r) : SameLocals c r.1 := by
  unfold reconcile at h
  split at h
  · cases h
    exact ⟨rfl, rfl⟩
  · split at h
    · obtain ⟨c1, hc1, h⟩ := bind_eq_ok.mp h
      exact (clearInfo_locals hc1).trans (reconcileTBAATag_locals h)
    · split at h
      · cases h
        exact .refl c
      · exact reconcileTBAATag_locals h

theorem getNonLocalInfoForBlock_locals {Loc : Location} {isLoad : Bool} {BB : BlockId} {n : Nat}
    {r : FlowDepResult × Caches} (h : getNonLocalInfoForBlock F c P Loc isLoad BB n = .ok r) :
    SameLocals c r.2 := by
  unfold getNonLocalInfoForBlock at h
  dsimp only at h
  split at h
  · cases h
    exact ⟨rfl, rfl⟩
  · split at h
    · cases h
      exact ⟨rfl, rfl⟩
    · split at h
      · cases h
      · obtain ⟨m, _, h⟩ := bind_eq_ok.mp h
        cases h
        exact ⟨rfl, rfl⟩
    · cases h
      exact .refl c

/-- A part of a walk leaves the local results alone. -/
theorem advance_locals {r : Advanced S} (h : w.advance F c = .ok r) : SameLocals c r.1 := by
  unfold Walk.advance at h
  split at h
  · obtain ⟨⟨c1, restart⟩, hc1, h⟩ := bind_eq_ok.mp h
    have hsame := reconcile_locals hc1
    cases restart with
    | none =>
      cases h
      exact hsame
    | some loc =>
      cases h
      exact hsame
  · cases h
    unfold Walk.lookup
    dsimp only
    split
    · split <;> exact .refl c
    · exact ⟨rfl, rfl⟩
  · unfold Walk.iterate at h
    split at h
    · cases h
      exact ⟨rfl, rfl⟩
    · dsimp only at h
      split at h
      · cases h
        exact .refl c
      · split at h
        · cases h
        · obtain ⟨⟨Dep, c1⟩, hc1, h⟩ := bind_eq_ok.mp h
          have hsame := getNonLocalInfoForBlock_locals hc1
          dsimp only at h
          split at h
          · cases h
            exact hsame
          · split at h
            · cases h
              exact hsame
            · split at h <;> cases h <;> exact hsame
  · cases h
    unfold Walk.transparent
    split
    · dsimp only
      split <;> exact .refl c
    · split
      · exact .refl c
      · dsimp only
        split <;> exact ⟨rfl, rfl⟩
  · unfold Walk.failed at h
    dsimp only at h
    split at h
    · cases h
      exact ⟨rfl, rfl⟩
    · split at h
      · cases h
      · cases h
        exact ⟨rfl, rfl⟩
  · cases h
    unfold Walk.preds
    dsimp only
    split
    · exact ⟨rfl, rfl⟩
    · split
      · exact ⟨rfl, rfl⟩
      · exact .refl c
  · cases h
    unfold Walk.ret
    split
    · exact .refl c
    · split
      · exact ⟨rfl, rfl⟩
      · exact .refl c

end Walks

end FlowDep
end DepTaint
