import DepTaint.CallAnswers
import DepTaint.LocalAgreement

/-!
# ClientRuns

The flow dependence analysis over whole runs: local queries, queries of calls, walks for pointers and
the removal of instructions, in any order.

`ClientInv` is the invariant: the local results and the entries of the calls are faithful to the
function as it is now, and their reverse maps hold what they name.

* `queries_agree`: in every state a local query returns what a scan made afresh would.
* `calls_answered`: in every state the query of a call without a local dependence ends with entries
  that answer it.
* `removed_forgotten`: after a removal nothing speaks about the instruction.
-/

namespace DepTaint
namespace FlowDep

open Relation

section Removal

variable {S : FiniteSetting} {F F' : Function S.AA} {R Q : InstId} {short : BlockId → Prop}
  {c c' : CallCaches} {es : List NonLocalDepEntry} {p : InstPtr}

/-! ## The entries of the removed call -/

/-- No entry of the call is `NonLocal`, and no two of them hold the same constant. -/
def CallRemovable (c : CallCaches) (R : InstId) : Prop :=
  ∀ info, c.nonLocalDeps R = some info →
    (∀ e ∈ info.first, e.result.isNonLocal = false) ∧
    (info.first.filterMap fun e => e.result.getInst).Nodup

theorem removeCallEntries_iff {m m' : ReverseMap InstPtr InstId} :
    removeCallEntries R m es = .ok m' ↔
      m.removeAll (es.filterMap fun e => e.result.getInst) R = .ok m' := by
  induction es generalizing m with
  | nil => exact ⟨fun h => by cases h; rfl, fun h => by cases h; rfl⟩
  | cons e es ih =>
    unfold removeCallEntries at ih ⊢
    rw [List.foldlM_cons]
    cases hget : e.result.getInst with
    | none =>
      rw [List.filterMap_cons, hget]
      exact ih
    | some I =>
      rw [List.filterMap_cons, hget]
      dsimp only
      unfold ReverseMap.removeAll at ih ⊢
      rw [List.foldlM_cons, bind_eq_ok]
      constructor
      · intro ⟨m1, h1, h2⟩
        exact bind_eq_ok.mpr ⟨m1, of_removeFromReverseMap_ok h1, ih.mp h2⟩
      · intro h
        cases hm1 : m.remove I R with
        | error e =>
          rw [hm1] at h
          cases h
        | ok m1 =>
          rw [hm1] at h
          exact ⟨m1, removeFromReverseMap_ok hm1, ih.mpr h⟩

/-- The entries of the removed call are taken out, if none of them is `NonLocal` and no constant
occurs twice. -/
theorem removeCallDeps_spec (h : CallInv S F short c) :
    (CallRemovable c R → ∃ c', removeCallDeps c R = .ok c') ∧
    ∀ c', removeCallDeps c R = .ok c' →
      CallRemovable c R ∧ CallInv S F short c' ∧ c'.nonLocalDeps R = none := by
  unfold removeCallDeps CallRemovable
  cases hc : c.nonLocalDeps R with
  | none =>
    refine ⟨fun _ => ⟨c, rfl⟩, fun c' hc' => ?_⟩
    cases hc'
    exact ⟨by simp, h, hc⟩
  | some info =>
    have hregistered : (∀ e ∈ info.first, e.result.isNonLocal = false) →
        ∀ t ∈ info.first.filterMap fun e => e.result.getInst, CallNames c R t := by
      intro hnl t ht
      obtain ⟨e, he, hp⟩ := List.mem_filterMap.mp ht
      exact ⟨info, hc, e, he, hnl e he, hp⟩
    refine ⟨fun hx => ?_, fun c' hc' => ?_⟩
    · obtain ⟨hnl, hnd⟩ := hx info rfl
      obtain ⟨m, hm, _⟩ := h.rev.removeAll hnd (hregistered hnl)
      exact ⟨_, bind_eq_ok.mpr ⟨m, removeCallEntries_iff.mpr hm, rfl⟩⟩
    · obtain ⟨m, hm, hc'⟩ := bind_eq_ok.mp hc'
      cases hc'
      have hrem := removeCallEntries_iff.mp hm
      have hnd := h.rev.nodup_of_removeAll hrem
      have hR := h.rev.of_removeAll hrem
      obtain ⟨m', hm', hrep⟩ := h.rev.removeAll hnd hR
      rw [hrem] at hm'
      cases hm'
      refine ⟨fun info' hinfo' => ?_, ⟨fun Q info' hinfo' => ?_, hrep.congr fun Q p => ?_⟩, by simp⟩
      · cases hinfo'
        refine ⟨fun e he => ?_, hnd⟩
        rw [Bool.eq_false_iff]
        intro hnl
        -- nothing is registered for a `NonLocal` entry
        have hr : e.result = .other .nonLocal := by simpa [FlowDepResult.isNonLocal] using hnl
        have hget : e.result.getInst = some (.other .nonLocal) := by
          rw [hr]
          rfl
        obtain ⟨info', _, e', _, hfalse, hget'⟩ := hR _ (List.mem_filterMap.mpr ⟨e, he, hget⟩)
        rw [FlowDepResult.getInst_eq_other_iff] at hget'
        rw [hget'] at hfalse
        cases hfalse
      · by_cases hQ : Q = R
        · subst hQ
          simp at hinfo'
        · simp only [Function.update_of_ne hQ] at hinfo'
          exact h.infos Q info' hinfo'
      · by_cases hQ : Q = R
        · subst hQ
          simp only [Function.update_self, reduceCtorEq, false_and, exists_false, and_true,
            iff_false]
          rintro ⟨⟨info', hinfo', e, he, _, hp⟩, hx⟩
          rw [hc] at hinfo'
          cases hinfo'
          exact hx (List.mem_filterMap.mpr ⟨e, he, hp⟩)
        · simp [hQ]

/-! ## The entries that name the removed instruction -/

/-- The entries after the removal have registered what they had, but for `R`, and the next
instruction if they named `R`. -/
theorem registered_map_dirtyEntry : Registered (es.map (dirtyEntry F R)) p ↔
    (Registered es p ∧ p ≠ .inst R) ∨
      (Registered es (.inst R) ∧ (newDirtyVal F R).getInst = some p) := by
  simp only [Registered, List.mem_map]
  constructor
  · rintro ⟨x, hx, hnl, hp⟩
    obtain ⟨e, he, rfl⟩ := hx
    by_cases hR : e.result.Names R
    · rw [dirtyEntry_of_names hR] at hp
      refine .inr ⟨⟨e, he, ?_, FlowDepResult.getInst_eq_inst_iff.mpr hR⟩, hp⟩
      rcases hR with h | h | h <;> rw [h] <;> rfl
    · rw [dirtyEntry_of_not_names hR] at hnl hp
      refine .inl ⟨⟨e, he, hnl, hp⟩, ?_⟩
      rintro rfl
      exact hR (FlowDepResult.getInst_eq_inst_iff.mp hp)
  · intro h
    rcases h with ⟨⟨e, he, hnl, hp⟩, hne⟩ | ⟨⟨e, he, _, hR⟩, hp⟩
    · have hR : ¬ e.result.Names R := by
        intro hx
        rw [FlowDepResult.getInst_eq_inst_iff.mpr hx] at hp
        exact hne (Option.some.inj hp).symm
      exact ⟨_, ⟨e, he, rfl⟩, by rw [dirtyEntry_of_not_names hR]; exact ⟨hnl, hp⟩⟩
    · refine ⟨_, ⟨e, he, rfl⟩, ?_⟩
      rw [dirtyEntry_of_names (FlowDepResult.getInst_eq_inst_iff.mp hR)]
      exact ⟨rfl, hp⟩

/-- The entries of a call in the function without `R`. -/
theorem CallEntriesOk.removes (h : CallEntriesOk F short Q es) (hF : F.Removes F' R) :
    CallEntriesOk F' short Q (es.map (dirtyEntry F R)) where
  nodup := by
    rw [blocksOf, List.map_map]
    simpa only [Function.comp_def, dirtyEntry_BB] using h.nodup
  faithful x hx := by
    obtain ⟨e, he, rfl⟩ := List.mem_map.mp hx
    have hfaithful := (h.faithful e he).removes hF (by simp) (by simp)
    rw [dirtyEntry_BB]
    by_cases hR : e.result.Names R
    · rw [if_pos hR] at hfaithful
      rwa [dirtyEntry_of_names hR]
    · rw [if_neg hR] at hfaithful
      rwa [dirtyEntry_of_not_names hR]

theorem nonLocal_mem_map_dirtyEntry {x : BlockId} :
    (⟨x, .other .nonLocal⟩ : NonLocalDepEntry) ∈ es.map (dirtyEntry F R) ↔
      ⟨x, .other .nonLocal⟩ ∈ es := by
  constructor
  · intro h
    obtain ⟨e, he, hx⟩ := List.mem_map.mp h
    by_cases hR : e.result.Names R
    · rw [dirtyEntry_of_names hR] at hx
      cases hx
    · rw [dirtyEntry_of_not_names hR] at hx
      rwa [← hx]
  · intro h
    exact List.mem_map.mpr ⟨_, h, dirtyEntry_of_not_names (by simp [FlowDepResult.Names])⟩

/-- The record of a call in the function without `R`. -/
theorem CallInfoOk.removes {QB : BlockId} {info : PerInstNLInfo}
    (h : CallInfoOk S F short Q QB info) (hF : F.Removes F' R) :
    CallInfoOk S F' short Q QB ⟨info.first.map (dirtyEntry F R), true⟩ := by
  have hblocks : ∀ b, b ∈ blocksOf (info.first.map (dirtyEntry F R)) ↔ b ∈ blocksOf info.first := by
    intro b
    rw [blocksOf, List.map_map]
    simp only [Function.comp_def, dirtyEntry_BB]
  refine ⟨h.entries.removes hF, fun hne p hp => ?_, fun e he hr p hp => ?_, fun b hb => ?_,
    fun hx => by cases hx⟩
  · exact (hblocks p).mpr (h.preds (by simpa using hne) p hp)
  · have hmem : e ∈ info.first := by
      have he' : (⟨e.BB, .other .nonLocal⟩ : NonLocalDepEntry) ∈
          info.first.map (dirtyEntry F R) := by rw [← hr]; exact he
      have := nonLocal_mem_map_dirtyEntry.mp he'
      rwa [← hr] at this
    exact (hblocks p).mpr (h.closed e hmem hr p hp)
  · exact (h.reached b ((hblocks b).mp hb)).mono fun x hx => nonLocal_mem_map_dirtyEntry.mpr hx

/-- Entries that do not name `R` stay. -/
theorem map_dirtyEntry_eq (h : ¬ EntryNames es (.inst R)) : es.map (dirtyEntry F R) = es := by
  refine (List.map_congr_left fun e he => ?_).trans (List.map_id es)
  exact dirtyEntry_of_not_names fun hx => h ⟨e, he, R, rfl, hx⟩

/-- What the loop over the calls that depend on `R` has done after the calls `done`. -/
structure DirtyCallInv (F : Function S.AA) (R : InstId) (c : CallCaches) (done : List InstId)
    (s : CallCaches × List (InstPtr × InstId)) : Prop where
  nonLocalDeps : ∀ Q, s.1.nonLocalDeps Q =
    if Q ∈ done then some ⟨((c.nonLocalDeps Q).getD {}).first.map (dirtyEntry F R), true⟩
    else c.nonLocalDeps Q
  reverseNonLocalDeps : s.1.reverseNonLocalDeps = c.reverseNonLocalDeps
  toAdd : ∀ p Q, (p, Q) ∈ s.2 ↔ Q ∈ done ∧ (newDirtyVal F R).getInst = some p

theorem DirtyCallInv.step {done : List InstId} {s : CallCaches × List (InstPtr × InstId)}
    (h : DirtyCallInv F R c done s) (hQ : Q ∉ done) (hnames : CallNames c Q (.inst R)) :
    DirtyCallInv F R c (done ++ [Q]) (dirtyCallDep F R s Q) where
  nonLocalDeps Q' := by
    have hsame : s.1.nonLocalDeps Q = c.nonLocalDeps Q := by rw [h.nonLocalDeps, if_neg hQ]
    by_cases hQQ : Q' = Q
    · subst hQQ
      simp [dirtyCallDep, hsame]
    · have hframe : (dirtyCallDep F R s Q).1.nonLocalDeps Q' = s.1.nonLocalDeps Q' := by
        simp [dirtyCallDep, hQQ]
      rw [hframe, h.nonLocalDeps]
      simp [hQQ]
  reverseNonLocalDeps := h.reverseNonLocalDeps
  toAdd p Q' := by
    have hsame : s.1.nonLocalDeps Q = c.nonLocalDeps Q := by rw [h.nonLocalDeps, if_neg hQ]
    obtain ⟨info, hinfo, e, he, _, hR⟩ := hnames
    simp only [dirtyCallDep, hsame, hinfo, Option.getD_some, List.mem_append, h.toAdd,
      List.mem_filterMap, List.mem_filter, List.mem_singleton, Option.map_eq_some_iff,
      Prod.mk.injEq, decide_eq_true_eq]
    constructor
    · intro hx
      rcases hx with ⟨hd, hp⟩ | ⟨_, _, J, hJ, rfl, rfl⟩
      · exact ⟨.inl hd, hp⟩
      · exact ⟨.inr rfl, hJ⟩
    · intro ⟨hd, hp⟩
      rcases hd with hd | rfl
      · exact .inl ⟨hd, hp⟩
      · exact .inr ⟨e, ⟨he, hR⟩, p, hp, rfl, rfl⟩

open Classical in
/-- The records of the calls after the removal of `R`. -/
theorem dirtyCallDeps_eq (h : CallInv S F short c) :
    (∀ Q, (dirtyCallDeps F c R).nonLocalDeps Q = (c.nonLocalDeps Q).map fun info =>
      if EntryNames info.first (.inst R) then ⟨info.first.map (dirtyEntry F R), true⟩ else info) ∧
    (dirtyCallDeps F c R).reverseNonLocalDeps.Represents fun Q p =>
      (CallNames c Q p ∧ p ≠ .inst R) ∨
        (CallNames c Q (.inst R) ∧ (newDirtyVal F R).getInst = some p) := by
  have hentry : ∀ es, EntryNames es (.inst R) ↔ Registered es (.inst R) := by
    intro es
    simp only [EntryNames, Registered, FlowDepResult.namesPtr_inst,
      FlowDepResult.getInst_eq_inst_iff]
    refine ⟨fun hx => ?_, fun hx => ?_⟩
    · obtain ⟨e, he, hR⟩ := hx
      refine ⟨e, he, ?_, hR⟩
      rcases hR with h | h | h <;> rw [h] <;> rfl
    · obtain ⟨e, he, _, hR⟩ := hx
      exact ⟨e, he, hR⟩
  unfold dirtyCallDeps
  cases hrev : c.reverseNonLocalDeps (.inst R) with
  | none =>
    have hnot : ∀ Q, ¬ CallNames c Q (.inst R) := fun Q => h.rev.not_of_none hrev
    refine ⟨fun Q => ?_, h.rev.congr fun Q p => ?_⟩
    · cases hc : c.nonLocalDeps Q with
      | none => rfl
      | some info =>
        have : ¬ EntryNames info.first (.inst R) := by
          rw [hentry]
          exact fun hx => hnot Q ⟨info, hc, hx⟩
        rw [Option.map_some, if_neg this]
    · show CallNames c Q p ↔ _
      simp only [hnot Q, false_and, or_false, iff_self_and]
      rintro hp rfl
      exact hnot Q hp
  | some Set =>
    have hset : ∀ Q, Q ∈ Set ↔ CallNames c Q (.inst R) := fun Q => h.rev.mem_set_iff hrev
    have hnd : Set.Nodup := (h.rev.tidy _ _ hrev).2
    have hinv : DirtyCallInv F R c Set (Set.foldl (dirtyCallDep F R) (c, [])) := by
      refine foldl_invariant (P := DirtyCallInv F R c) ⟨by simp, rfl, by simp⟩
        fun pre Q post s hsplit hpre => hpre.step ?_ ((hset Q).mp (by simp [hsplit]))
      rw [hsplit, List.nodup_middle, List.nodup_cons] at hnd
      exact fun hQ => hnd.1 (List.mem_append_left _ hQ)
    dsimp only
    generalize Set.foldl (dirtyCallDep F R) (c, []) = s at hinv ⊢
    refine ⟨fun Q => ?_, ?_⟩
    · rw [hinv.nonLocalDeps]
      by_cases hQ : Q ∈ Set
      · obtain ⟨info, hinfo, hR⟩ := (hset Q).mp hQ
        rw [if_pos hQ, hinfo, Option.getD_some, Option.map_some, if_pos ((hentry _).mpr hR)]
      · rw [if_neg hQ]
        cases hc : c.nonLocalDeps Q with
        | none => rfl
        | some info =>
          have : ¬ EntryNames info.first (.inst R) := by
            rw [hentry]
            exact fun hx => hQ ((hset Q).mpr ⟨info, hc, hx⟩)
          rw [Option.map_some, if_neg this]
    · have hrep : s.1.reverseNonLocalDeps.Represents (CallNames c) := by
        rw [hinv.reverseNonLocalDeps]
        exact h.rev
      refine ((hrep.erase (t := .inst R)).insertAll _).congr fun Q p => ?_
      rw [List.mem_reverse, hinv.toAdd, hset]

/-- The caches of the calls after the removal of `R`, for the function without it. -/
theorem dirtyCallDeps_spec (h : CallInv S F short c) (hF : F.Removes F' R) (hR : F.HasInst R)
    (hnone : c.nonLocalDeps R = none) :
    CallInv S F' short (dirtyCallDeps F c R) ∧ (dirtyCallDeps F c R).nonLocalDeps R = none ∧
      ∀ Q info, (dirtyCallDeps F c R).nonLocalDeps Q = some info →
        ¬ EntryNames info.first (.inst R) := by
  obtain ⟨hdeps, hrev⟩ := dirtyCallDeps_eq (R := R) h
  obtain ⟨b, hb⟩ := Option.isSome_iff_exists.mp hR
  have hRb := (F.getParent_iff R b).mp hb
  refine ⟨⟨fun Q info' hinfo' => ?_, hrev.congr fun Q p => ?_⟩, by rw [hdeps, hnone]; rfl,
    fun Q info' hinfo' => ?_⟩
  · rw [hdeps, Option.map_eq_some_iff] at hinfo'
    obtain ⟨info, hinfo, rfl⟩ := hinfo'
    obtain ⟨QB, hQB, hok⟩ := h.infos Q info hinfo
    have hQR : Q ≠ R := by
      rintro rfl
      rw [hnone] at hinfo
      cases hinfo
    have hQB' : F'.getParent Q = some QB :=
      (F'.getParent_iff Q QB).mpr (hF.mem_insts.mpr ⟨(F.getParent_iff Q QB).mp hQB, hQR⟩)
    refine ⟨QB, hQB', ?_⟩
    have hremoved := hok.removes hF
    split
    · exact hremoved
    · rename_i hnot
      rw [map_dirtyEntry_eq hnot] at hremoved
      exact ⟨hremoved.entries, hremoved.preds, hremoved.closed, hremoved.reached, hok.clean⟩
  · simp only [hdeps, Option.map_eq_some_iff]
    cases hc : c.nonLocalDeps Q with
    | none => simp [CallNames, hc]
    | some info =>
      simp only [CallNames, hc, Option.some.injEq, exists_eq_left']
      rw [← registered_map_dirtyEntry]
      split
      · rfl
      · rename_i hnot
        rw [map_dirtyEntry_eq hnot]
  · rw [hdeps, Option.map_eq_some_iff] at hinfo'
    obtain ⟨info, hinfo, rfl⟩ := hinfo'
    split
    · intro hx
      obtain ⟨x, hx, i, hi, hnames⟩ := hx
      cases hi
      obtain ⟨e, _, rfl⟩ := List.mem_map.mp hx
      by_cases he : e.result.Names R
      · rw [dirtyEntry_of_names he] at hnames
        exact (mem_of_newDirtyVal_names hRb hnames).2 rfl
      · rw [dirtyEntry_of_not_names he] at hnames
        exact he hnames
    · assumption

end Removal

/-! ## Runs -/

section Runs

variable {S : FiniteSetting} {F F' : Function S.AA} {s s' : ClientState S} {R : InstId}

/-- The state after calls of the client on the function `F`. -/
structure ClientInv (F : Function S.AA) (s : ClientState S) : Prop where
  locals : LocalInv (Short F) s.base.F s.base.caches
  calls : CallInv S s.base.F (Short F) s.calls
  short : ∀ b, Short F b → Short s.base.F b

theorem clientInv_initial (F : Function S.AA) : ClientInv F (.initial F) :=
  ⟨localInv_empty, callInv_empty, fun _ hb => hb⟩

/-- The removal from all of the caches is that from each. -/
theorem of_removeFromAll_ok {c c' : Caches} {calls calls' : CallCaches}
    (h : removeFromAll F c calls R = .ok (c', calls')) :
    removeInstruction F c R = .ok c' ∧
      ∃ calls1, removeCallDeps calls R = .ok calls1 ∧ calls' = dirtyCallDeps F calls1 R := by
  obtain ⟨calls1, h0, h⟩ := bind_eq_ok.mp h
  obtain ⟨c1, h1, h⟩ := bind_eq_ok.mp h
  obtain ⟨c2, h2, h⟩ := bind_eq_ok.mp h
  obtain ⟨c3, h3, h⟩ := bind_eq_ok.mp h
  split at h
  · cases h
  dsimp only at h
  split at h
  · cases h
  split at h
  · cases h
  cases h
  exact ⟨bind_eq_ok.mpr ⟨c1, h1, bind_eq_ok.mpr ⟨c2, h2, bind_eq_ok.mpr ⟨c3, h3, rfl⟩⟩⟩,
    calls1, h0, rfl⟩

/-- A query of a call is a local query, and what follows it. -/
theorem of_getNonLocalCallDependency_ok {c c' : Caches} {calls calls' : CallCaches} {Q : InstId}
    {es : List NonLocalDepEntry}
    (h : getNonLocalCallDependency S F Q c calls = .ok (es, c', calls')) :
    (∃ r, getDependency F c Q = .ok (r, c')) ∧ answerCall S F Q calls = .ok (es, calls') := by
  obtain ⟨⟨r, c1⟩, hr, h⟩ := bind_eq_ok.mp h
  dsimp only at h
  split at h
  · obtain ⟨⟨es1, calls1⟩, hes, h⟩ := bind_eq_ok.mp h
    cases h
    exact ⟨⟨r, hr⟩, hes⟩
  · cases h

/-- A part of the analysis that leaves the calls alone. -/
theorem ClientInv.base_step (h : ClientInv F s) {a : Action S.toSetting} (ha : s.base.Enabled a)
    (hne : ∀ R F', a ≠ .removeInstruction R F') {b : State S.toSetting}
    (hb : s.base.step a = .ok b) : ClientInv F { s with base := b } := by
  have hsame : ∀ b : State S.toSetting, b.F = s.base.F → SameLocals s.base.caches b.caches →
      ClientInv F { s with base := b } := by
    intro b hF hc
    refine ⟨?_, ?_, ?_⟩
    · show LocalInv (Short F) b.F b.caches
      rw [hF]
      exact h.locals.same hc
    · show CallInv S b.F (Short F) s.calls
      rw [hF]
      exact h.calls
    · show ∀ x, Short F x → Short b.F x
      rw [hF]
      exact h.short
  cases a with
  | getDependency Q =>
    obtain ⟨⟨r, c⟩, hc, hb⟩ := bind_eq_ok.mp hb
    cases hb
    obtain ⟨BB, hBB⟩ := Option.isSome_iff_exists.mp ha.2
    obtain ⟨r', c', hc', hinv, _⟩ :=
      getDependency_agrees h.locals h.short ((s.base.F.getParent_iff Q BB).mp hBB)
    rw [hc] at hc'
    cases hc'
    exact ⟨hinv, h.calls, h.short⟩
  | getNonLocalPointerDependency Loc isLoad FromBB =>
    cases hb
    exact hsame _ rfl (.refl _)
  | invalidateCachedPointerInfo Ptr =>
    obtain ⟨c, hc, hb⟩ := bind_eq_ok.mp hb
    cases hb
    exact hsame _ rfl (invalidate_locals hc)
  | removeInstruction R F' => exact absurd rfl (hne R F')
  | advance =>
    simp only [State.step] at hb
    split at hb
    · cases hb
      exact h
    · obtain ⟨⟨c, w⟩, hw, hb⟩ := bind_eq_ok.mp hb
      have hc := advance_locals hw
      dsimp only at hb
      split at hb
      · cases hb
        exact hsame _ rfl hc
      · cases hb
        exact hsame _ rfl hc

/-- The entries of a call after its query. -/
theorem ClientInv.answer (h : ClientInv F s) {Q : InstId} (hQ : s.base.F.HasInst Q)
    {es : List NonLocalDepEntry} {calls : CallCaches}
    (hes : answerCall S s.base.F Q s.calls = .ok (es, calls)) :
    ClientInv F { s with calls := calls } := by
  obtain ⟨QB, hQB⟩ := Option.isSome_iff_exists.mp hQ
  obtain ⟨es', calls', hes', hinv, _⟩ := answerCall_spec h.calls h.short hQB
  rw [hes] at hes'
  cases hes'
  exact ⟨h.locals, hinv, h.short⟩

/-- The step lemma. -/
theorem ClientInv.step (h : ClientInv F s) {a : ClientAction S} (ha : s.Enabled a)
    (hs : s.step a = .ok s') : ClientInv F s' := by
  cases a with
  | base a =>
    obtain ⟨b, hb, hs⟩ := bind_eq_ok.mp hs
    cases hs
    exact h.base_step ha.1 ha.2 hb
  | getNonLocalCallDependency Q =>
    obtain ⟨⟨es, c, calls⟩, hc, hs⟩ := bind_eq_ok.mp hs
    cases hs
    obtain ⟨⟨r, hr⟩, hes⟩ := of_getNonLocalCallDependency_ok hc
    have hbase : s.base.step (.getDependency Q) = .ok { s.base with caches := c } :=
      bind_eq_ok.mpr ⟨_, hr, rfl⟩
    exact (h.base_step (a := .getDependency Q) ha (by rintro _ _ ⟨⟩) hbase).answer ha.2 hes
  | answerCall Q =>
    obtain ⟨⟨es, calls⟩, hes, hs⟩ := bind_eq_ok.mp hs
    cases hs
    exact h.answer ha.2 hes
  | removeInstruction R F' =>
    obtain ⟨⟨c, calls⟩, hc, hs⟩ := bind_eq_ok.mp hs
    cases hs
    obtain ⟨_, hR, hF⟩ := ha
    obtain ⟨hbase, calls1, hcalls1, rfl⟩ := of_removeFromAll_ok hc
    obtain ⟨_, hinv1, hnone1⟩ := (removeCallDeps_spec h.calls).2 calls1 hcalls1
    exact ⟨(removeInstruction_locals h.locals hF hbase).1,
      (dirtyCallDeps_spec hinv1 hF hR hnone1).1, fun b hb => hF.short (h.short b hb)⟩

/-- The run lemma. -/
theorem clientInv_of_run (h : ReflTransGen ClientState.Step (.initial F) s) : ClientInv F s := by
  induction h with
  | refl => exact clientInv_initial F
  | tail _ hstep ih =>
    obtain ⟨a, ha, hs⟩ := hstep
    exact ih.step ha hs

end Runs

/-! ## Two calls -/

namespace CallBlocks

/-- A call and the end of its block, then a call that depends on the first one. -/
def AA : AliasAnalysis where
  inst i :=
    if i = 0 ∨ i = 2 then { cls := .call none, mayReadFromMemory := true, mayWriteToMemory := true }
    else { cls := .other, isTerminator := true }
  isPointerTy _ := true
  getLocation _ := { ptr := none, size := 0 }
  aliasLoc _ _ := .noAlias
  isMustAlias _ _ := false
  aliasPtr _ _ := .noAlias
  isMustAliasPtr _ _ := false
  getModRefInfo _ _ := .noModRef
  getModRefInfoCS _ _ := .modRef
  callCapturesBefore _ _ := .noModRef
  pointsToConstantMemory _ := false
  onlyReadsMemory _ := false
  isIdenticalToWhenDefined i j := i = j
  getUnderlyingObject v := v
  getPointerBaseWithConstantOffset v := (v, 0)
  getZExtValue _ := 0
  fitsInLegalInteger := none
  sanitizeThread := false
  sanitizeAddress := false

/-- The blocks, when the first call is still there and when it is not. -/
def insts (whole : Bool) (b : BlockId) : List InstId :=
  if b = 0 then if whole then [0, 1] else [1] else if b = 1 then [2, 3] else []

def getParent (whole : Bool) (i : InstId) : Option BlockId :=
  if i = 0 then if whole then some 0 else none
  else if i = 1 then some 0 else if i ≤ 3 then some 1 else none

theorem mem_insts_iff (whole : Bool) (i b : Nat) :
    i ∈ insts whole b ↔ b = 0 ∧ (i = 1 ∨ i = 0 ∧ whole = true) ∨ b = 1 ∧ (i = 2 ∨ i = 3) := by
  by_cases h0 : b = 0
  · cases whole <;> simp [insts, h0, or_comm]
  · by_cases h1 : b = 1
    · simp [insts, h1]
    · simp [insts, h0, h1]

theorem getParent_iff (whole : Bool) (i b : Nat) :
    getParent whole i = some b ↔ i ∈ insts whole b := by
  rw [mem_insts_iff, getParent]
  by_cases h0 : i = 0
  · cases whole <;> simp [h0, eq_comm]
  · by_cases h1 : i = 1
    · simp [h1, eq_comm]
    · by_cases h3 : i ≤ 3
      · simp only [if_neg h0, if_neg h1, if_pos h3, Option.some_inj]
        show 1 = b ↔ _
        omega
      · simp only [if_neg h0, if_neg h1, if_neg h3, reduceCtorEq, false_iff]
        omega

def F (whole : Bool) : Function AA where
  entryBlock := 0
  insts := insts whole
  getParent := getParent whole
  getParent_iff := getParent_iff whole
  nodup b := by
    unfold insts
    cases whole <;> split_ifs <;> decide
  terminated b pre i post h := by
    have hlast : ∀ {l : List InstId} {x y : InstId}, l = [x, y] → l = pre ++ i :: post →
        ((AA.inst x).isTerminator = true ↔ False) → ((AA.inst y).isTerminator = true ↔ True) →
        ((AA.inst i).isTerminator = true ↔ post = []) := by
      intro l x y hl h hx hy
      subst hl
      rcases pre with _ | ⟨z, _ | ⟨w, pre⟩⟩ <;> simp at h
      · obtain ⟨rfl, rfl⟩ := h
        simpa using hx
      · obtain ⟨_, rfl, rfl⟩ := h
        simpa using hy
    unfold insts at h
    split_ifs at h
    · exact hlast rfl h (by decide) (by decide)
    · rcases pre with _ | ⟨z, pre⟩ <;> simp at h
      obtain ⟨rfl, rfl⟩ := h
      decide
    · exact hlast rfl h (by decide) (by decide)
    · simp at h

def S : FiniteSetting where
  AA := AA
  DT := none
  getPreds b := if b = 1 then [0] else []
  phi :=
    { Addr := Option Value
      ofPtr v := v
      getAddr v := v
      getAddr_ofPtr := fun _ => rfl
      needsPHITranslationFromBlock := fun _ _ => false
      isPotentiallyPHITranslatable := fun _ => true
      pHITranslateValue := fun v _ _ => v }
  blocks := {0}
  preds_mem b p hp := by
    by_cases hb : b = 1
    · rw [if_pos hb] at hp
      exact Finset.mem_singleton.mpr (List.mem_singleton.mp hp)
    · rw [if_neg hb] at hp
      cases hp

def start : ClientState S := ClientState.initial (F true)

/-- After the query of the second call. -/
def queried : Except Fault (ClientState S) := start.step (.getNonLocalCallDependency 2)

theorem removes : (F true).Removes (F false) 0 where
  entryBlock := rfl
  insts b := by
    show insts false b = (insts true b).filter (· ≠ 0)
    by_cases h0 : b = 0
    · rw [h0]
      decide
    · by_cases h1 : b = 1
      · rw [h1]
        decide
      · simp [insts, h0, h1]

theorem reachable_queried {s : ClientState S} (h : queried = .ok s) :
    ReflTransGen ClientState.Step start s :=
  .single ⟨.getNonLocalCallDependency 2, ⟨rfl, rfl⟩, h⟩

theorem reachable_removed {s s' : ClientState S} (h : queried = .ok s)
    (hR : s.Enabled (.removeInstruction 0 (F false)))
    (hs : s.step (.removeInstruction 0 (F false)) = .ok s') :
    ReflTransGen ClientState.Step start s' :=
  (reachable_queried h).tail ⟨_, hR, hs⟩

end CallBlocks

section Results

variable {S : FiniteSetting} {F F' : Function S.AA} {s s' : ClientState S} {R : InstId}

/-- In every state a local query returns; what it returns, cached or not, is the full dependence or
`Unknown`, and in a block that has been short from the start it is what a scan made afresh returns. -/
theorem queries_agree (h : ReflTransGen ClientState.Step (.initial F) s) {Q : InstId} {BB : BlockId}
    (hQ : Q ∈ s.base.F.insts BB) :
    ∃ r c, getDependency s.base.F s.base.caches Q = .ok (r, c) ∧
      (r = fullDependency s.base.F Q BB ∨ r = .other .unknown) ∧
      (Short F BB → (localScanner S.AA Q).isSome → r = localDependency s.base.F Q Q BB) := by
  have hinv := clientInv_of_run h
  obtain ⟨r, c, hr, _, hagrees, _⟩ := getDependency_agrees hinv.locals hinv.short hQ
  refine ⟨r, c, hr, hagrees.imp_right And.left, fun hshort hscanner => ?_⟩
  have hexact : ∀ {r'}, Agrees (Short F BB ∧ (localScanner S.AA Q).isSome) r'
      (fullDependency s.base.F Q BB) → r' = fullDependency s.base.F Q BB :=
    fun ha => ha.resolve_right fun hx => hx.2 ⟨hshort, hscanner⟩
  obtain ⟨hfresh, hdirty⟩ := localDependency_faithful (Q := Q) (hinv.short BB) (.inl rfl)
  rw [hexact hagrees, hexact (hfresh.agrees hdirty)]

/-- The second call has nothing above it in its block, whatever happened to the first one. -/
theorem queries_agree_second : ∃ s, CallBlocks.queried = .ok s ∧
    ∃ s', s.step (.removeInstruction 0 (CallBlocks.F false)) = .ok s' ∧
      ∃ r c, getDependency s'.base.F s'.base.caches 2 = .ok (r, c) ∧
        r = localDependency s'.base.F 2 2 1 := by
  refine ⟨_, rfl, _, rfl, ?_⟩
  obtain ⟨r, c, hr, _, hfresh⟩ := queries_agree
    (CallBlocks.reachable_removed rfl ⟨rfl, rfl, CallBlocks.removes⟩ rfl)
    (show 2 ∈ (CallBlocks.F false).insts 1 by decide)
  exact ⟨r, c, hr, hfresh (by unfold Short; decide) (by decide)⟩

/-- In every state the query of a call stops at its assertion if the call has a dependence in its own
block. If it has none the query ends, and its entries answer it; when no block has been long enough
for a scan to be cut off, they are those of the plain search. -/
theorem calls_answered (h : ReflTransGen ClientState.Step (.initial F) s) {Q : InstId}
    {BB : BlockId} (hQ : Q ∈ s.base.F.insts BB) :
    ∃ r c, getDependency s.base.F s.base.caches Q = .ok (r, c) ∧
      (r.isNonLocal = false →
        getNonLocalCallDependency S s.base.F Q s.base.caches s.calls = .error .localDependence) ∧
      (r.isNonLocal = true → ∃ es calls,
        getNonLocalCallDependency S s.base.F Q s.base.caches s.calls = .ok (es, c, calls) ∧
        Answers S s.base.F (Short F) Q BB es ∧
        ((∀ b, Short F b) → ∀ e, e ∈ es ↔ LiveAcross S s.base.F Q BB e.BB ∧
          e.result = (callScanner S.AA Q).full s.base.F e.BB none)) := by
  have hinv := clientInv_of_run h
  obtain ⟨r, c, hr, _⟩ := getDependency_agrees hinv.locals hinv.short hQ
  refine ⟨r, c, hr, fun hlocal => ?_, fun hnl => ?_⟩
  · simp only [getNonLocalCallDependency, hr, bind, Except.bind, hlocal]
    rfl
  · obtain ⟨es, calls, hes, _, hanswers⟩ := answerCall_spec hinv.calls hinv.short
      ((s.base.F.getParent_iff Q BB).mpr hQ)
    refine ⟨es, calls, ?_, hanswers, fun hshort e => hanswers.mem_iff hshort⟩
    simp only [getNonLocalCallDependency, hr, hes, bind, Except.bind, hnl, if_true]

/-- The entry of block 0 is dirty after the removal of the first call; the next query repairs it. -/
theorem calls_answered_second : ∃ s, CallBlocks.queried = .ok s ∧
    ∃ s', s.step (.removeInstruction 0 (CallBlocks.F false)) = .ok s' ∧
      s'.calls.nonLocalDeps 2 = some ⟨[⟨0, .dirty (some 1)⟩], true⟩ ∧
      ∃ es c calls, getNonLocalCallDependency CallBlocks.S s'.base.F 2 s'.base.caches s'.calls =
          .ok (es, c, calls) ∧
        Answers CallBlocks.S s'.base.F (Short (CallBlocks.F true)) 2 1 es := by
  refine ⟨_, rfl, _, rfl, rfl, ?_⟩
  obtain ⟨r, c, hr, _, hanswered⟩ := calls_answered
    (CallBlocks.reachable_removed rfl ⟨rfl, rfl, CallBlocks.removes⟩ rfl)
    (show 2 ∈ (CallBlocks.F false).insts 1 by decide)
  -- the local result is still in the cache
  cases hr
  obtain ⟨es, calls, hes, hanswers, _⟩ := hanswered rfl
  exact ⟨es, _, calls, hes, hanswers⟩

/-- In every state a removal leaves no local result and no entry of a call that speaks about the
instruction. -/
theorem removed_forgotten (h : ReflTransGen ClientState.Step (.initial F) s)
    (hR : s.Enabled (.removeInstruction R F')) (hs : s.step (.removeInstruction R F') = .ok s') :
    VerifyRemoved s'.base.caches s'.calls R := by
  have hinv := clientInv_of_run h
  have hinv' := hinv.step hR hs
  obtain ⟨⟨c, calls⟩, hc, hs⟩ := bind_eq_ok.mp hs
  cases hs
  obtain ⟨_, hmem, hF⟩ := hR
  obtain ⟨hbase, calls1, hcalls1, rfl⟩ := of_removeFromAll_ok hc
  obtain ⟨_, hinv1, hnone1⟩ := (removeCallDeps_spec hinv.calls).2 calls1 hcalls1
  obtain ⟨_, hnone, hnames⟩ := removeInstruction_locals hinv.locals hF hbase
  obtain ⟨_, hcnone, hcnames⟩ := dirtyCallDeps_spec hinv1 hF hmem hnone1
  have hnot : ∀ {r : FlowDepResult}, ¬ r.Names R → r.getInst ≠ some (.inst R) :=
    fun hr hx => hr (FlowDepResult.getInst_eq_inst_iff.mp hx)
  have hentry : ∀ Q info, (dirtyCallDeps s.base.F calls1 R).nonLocalDeps Q = some info →
      ∀ e ∈ info.first, e.result.getInst ≠ some (.inst R) :=
    fun Q info hinfo e he => hnot fun hx => hcnames Q info hinfo ⟨e, he, R, rfl, hx⟩
  refine ⟨⟨hnone, fun Q r hr => hnot (hnames Q r hr)⟩, ⟨hcnone, hentry⟩, ⟨?_, fun p hp => ?_⟩,
    ⟨?_, fun p hp => ?_⟩⟩
  · cases hrev : c.reverseLocalDeps (.inst R) with
    | none => rfl
    | some l =>
      obtain ⟨Q, r, hr, hi⟩ := hinv'.locals.rev.exists_of_isSome (t := .inst R) (by
        show (c.reverseLocalDeps (.inst R)).isSome
        rw [hrev]
        rfl)
      exact absurd hi (hnot (hnames Q r hr))
  · obtain ⟨r, hr, _⟩ := (hinv'.locals.rev.mem_iff p R).mp hp
    rw [show c.localDeps R = some r from hr] at hnone
    cases hnone
  · cases hrev : (dirtyCallDeps s.base.F calls1 R).reverseNonLocalDeps (.inst R) with
    | none => rfl
    | some l =>
      obtain ⟨Q, info, hinfo, e, he, _, hi⟩ :=
        hinv'.calls.rev.exists_of_isSome (t := .inst R) (by
          show ((dirtyCallDeps s.base.F calls1 R).reverseNonLocalDeps (.inst R)).isSome
          rw [hrev]
          rfl)
      exact absurd hi (hentry Q info hinfo e he)
  · obtain ⟨info, hinfo, _⟩ := (hinv'.calls.rev.mem_iff p R).mp hp
    rw [show (dirtyCallDeps s.base.F calls1 R).nonLocalDeps R = some info from hinfo] at hcnone
    cases hcnone

theorem removed_forgotten_first : ∃ s, CallBlocks.queried = .ok s ∧
    ∃ s', s.step (.removeInstruction 0 (CallBlocks.F false)) = .ok s' ∧
      VerifyRemoved s'.base.caches s'.calls 0 :=
  ⟨_, rfl, _, rfl, removed_forgotten (CallBlocks.reachable_queried rfl)
    ⟨rfl, rfl, CallBlocks.removes⟩ rfl⟩

end Results

end FlowDep
end DepTaint
