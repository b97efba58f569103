import DepTaint.Base.Fold
import DepTaint.Base.Worklist
import DepTaint.DependenceWalk
import Mathlib.Data.List.TakeWhile

/-!
# CacheInverse

The agreement of the dependence caches with the reverse maps, and what `getDependency` does to it.

`Consistent` is the invariant: the reverse maps represent what the cached results name, every cached
local result names an instruction of the query's block, at the query or before it, and the entries
of a pointer are for different blocks, each naming an instruction of its own block.

* `Consistent.inverse`: it makes the maps inverse.
* `getDependency_spec`: a query keeps it exactly when it finds a dependence.
-/

namespace DepTaint
namespace FlowDep

/-- What the reverse maps are to hold of a result. -/
def FlowDepResult.NamesPtr (r : FlowDepResult) (p : InstPtr) : Prop := ∃ i, p = .inst i ∧ r.Names i

theorem FlowDepResult.namesPtr_inst {r : FlowDepResult} {i : InstId} :
    r.NamesPtr (.inst i) ↔ r.Names i := by
  constructor
  · intro ⟨j, hj, h⟩
    cases hj
    exact h
  · intro h
    exact ⟨i, rfl, h⟩

theorem FlowDepResult.NamesPtr.getInst {r : FlowDepResult} {p : InstPtr} (h : r.NamesPtr p) :
    r.getInst = some p := by
  obtain ⟨i, rfl, h⟩ := h
  exact getInst_eq_inst_iff.mpr h

theorem FlowDepResult.namesPtr_iff {r : FlowDepResult} (hr : r.isMarker = false) {p : InstPtr} :
    r.NamesPtr p ↔ r.getInst = some p := by
  refine ⟨NamesPtr.getInst, fun h => ?_⟩
  cases p with
  | inst i => exact namesPtr_inst.mpr (getInst_eq_inst_iff.mp h)
  | other o =>
    rw [getInst_eq_other_iff] at h
    subst h
    cases hr

section Invariant

variable {AA : AliasAnalysis} {F : Function AA} {c : Caches}

theorem Function.hasInst_of_mem {i : InstId} {b : BlockId} (h : i ∈ F.insts b) : F.HasInst i := by
  unfold HasInst
  rw [(F.getParent_iff i b).mpr h]
  rfl

/-- `i` stands before `Q` in its block. -/
def Function.Before (F : Function AA) (i Q : InstId) : Prop := ∃ b, [i, Q].Sublist (F.insts b)

theorem Function.Before.hasInst {i Q : InstId} (h : F.Before i Q) : F.HasInst i := by
  obtain ⟨b, h⟩ := h
  exact hasInst_of_mem (h.subset (List.mem_cons_self ..))

/-- The local result `r` of `Q` names an instruction before `Q`, or is dirty and names `Q`. -/
def LocalOk (F : Function AA) (Q : InstId) (r : FlowDepResult) : Prop :=
  ∃ i, r.Names i ∧ (F.Before i Q ∨ (i = Q ∧ r.isDirty = true ∧ F.HasInst Q))

theorem LocalOk.isMarker {Q : InstId} {r : FlowDepResult} (h : LocalOk F Q r) :
    r.isMarker = false := by
  obtain ⟨i, hi, _⟩ := h
  rcases hi with rfl | rfl | rfl <;> rfl

structure EntriesOk (F : Function AA) (es : List NonLocalDepEntry) : Prop where
  nodup : (es.map NonLocalDepEntry.BB).Nodup
  mem : ∀ e ∈ es, ∀ i, e.result.Names i → i ∈ F.insts e.BB

/-- Some entry of the list names the pointer. -/
def EntryNames (es : List NonLocalDepEntry) (p : InstPtr) : Prop := ∃ e ∈ es, e.result.NamesPtr p

structure Consistent (F : Function AA) (c : Caches) : Prop where
  locals : c.reverseLocalDeps.Represents fun Q p => ∃ r, c.localDeps Q = some r ∧ r.NamesPtr p
  local_ok : ∀ Q r, c.localDeps Q = some r → LocalOk F Q r
  ptrs : c.reverseNonLocalPtrDeps.Represents fun P p => EntryNames (c.entries P) p
  entries_ok : ∀ P, EntriesOk F (c.entries P)

theorem Consistent.inverse (h : Consistent F c) : c.Inverse F where
  local_key p hp := by
    obtain ⟨Q, r, hr, i, rfl, hi⟩ := h.locals.exists_of_isSome hp
    obtain ⟨j, hj, hpos⟩ := h.local_ok Q r hr
    obtain rfl := hi.unique hj
    refine ⟨i, rfl, ?_⟩
    rcases hpos with hpos | ⟨rfl, _, hQ⟩
    · exact hpos.hasInst
    · exact hQ
  ptr_key p hp := by
    obtain ⟨P, e, he, i, rfl, hi⟩ := h.ptrs.exists_of_isSome hp
    exact ⟨i, rfl, Function.hasInst_of_mem ((h.entries_ok P).mem e he i hi)⟩
  local_iff i Q := by
    rw [h.locals.mem_iff]
    simp only [FlowDepResult.namesPtr_inst]
  ptr_iff i P := by
    rw [h.ptrs.mem_iff]
    simp only [EntryNames, FlowDepResult.namesPtr_inst]

theorem consistent_empty : Consistent F {} where
  locals := ReverseMap.represents_empty.congr fun Q p => by simp
  local_ok := by simp
  ptrs := ReverseMap.represents_empty.congr fun P p => by
    simp [Caches.entries, Caches.info, EntryNames]
  entries_ok P := by
    constructor <;> simp [Caches.entries, Caches.info]

/-- The rule for an operation on the local results. -/
theorem Consistent.of_locals (h : Consistent F c) {c' : Caches}
    (hinfo : c'.nonLocalPointerDeps = c.nonLocalPointerDeps)
    (hrev : c'.reverseNonLocalPtrDeps = c.reverseNonLocalPtrDeps)
    (hlocals : c'.reverseLocalDeps.Represents
      fun Q p => ∃ r, c'.localDeps Q = some r ∧ r.NamesPtr p)
    (hok : ∀ Q r, c'.localDeps Q = some r → LocalOk F Q r) : Consistent F c' where
  locals := hlocals
  local_ok := hok
  ptrs := by
    simpa only [Caches.entries, Caches.info, hinfo, hrev] using h.ptrs
  entries_ok := by
    simpa only [Caches.entries, Caches.info, hinfo] using h.entries_ok

/-- The rule for an operation on the entries of the pointers. -/
theorem Consistent.of_ptrs (h : Consistent F c) {c' : Caches} (hl : c'.localDeps = c.localDeps)
    (hr : c'.reverseLocalDeps = c.reverseLocalDeps)
    (hptrs : c'.reverseNonLocalPtrDeps.Represents fun P p => EntryNames (c'.entries P) p)
    (hok : ∀ P, EntriesOk F (c'.entries P)) : Consistent F c' where
  locals := by simpa only [hl, hr] using h.locals
  local_ok := by simpa only [hl] using h.local_ok
  ptrs := hptrs
  entries_ok := hok

end Invariant

/-! ## Scans -/

section Scan

variable {AA : AliasAnalysis} {F : Function AA}

theorem mem_above_none {BB : BlockId} {i : InstId} : i ∈ F.above BB none ↔ i ∈ F.insts BB := by
  simp [Function.above]

theorem before_of_mem_above {BB : BlockId} {i Q : InstId} (hQ : Q ∈ F.insts BB)
    (h : i ∈ F.above BB (some Q)) : [i, Q].Sublist (F.insts BB) := by
  simp only [Function.above, List.mem_reverse] at h
  have hsplit : (F.insts BB).takeWhile (· ≠ Q) ++ (F.insts BB).dropWhile (· ≠ Q) = F.insts BB :=
    List.takeWhile_append_dropWhile
  have hdrop : Q ∈ (F.insts BB).dropWhile (· ≠ Q) := by
    rcases List.mem_append.mp (hsplit ▸ hQ) with hm | hm
    · simpa using List.mem_takeWhile_imp hm
    · exact hm
  rw [← hsplit]
  exact (List.singleton_sublist.mpr h).append (List.singleton_sublist.mpr hdrop)

theorem sublist_pair_trans {l : List InstId} (hnd : l.Nodup) {a b d : InstId}
    (hab : [a, b].Sublist l) (hbd : [b, d].Sublist l) : [a, d].Sublist l := by
  induction l with
  | nil => cases hab
  | cons x l ih =>
    obtain ⟨hx, hnd⟩ := List.nodup_cons.mp hnd
    cases hbd with
    | cons _ hbd =>
      cases hab with
      | cons _ hab => exact (ih hnd hab hbd).cons _
      | cons_cons _ hb =>
        exact (List.singleton_sublist.mpr (hbd.subset (by simp))).cons_cons _
    | cons_cons _ hd =>
      -- `b` is the head of the list, and nothing stands before it
      cases hab with
      | cons _ hab => exact absurd (hab.subset (by simp)) hx
      | cons_cons _ hb => exact absurd (hb.subset (by simp)) hx

theorem localDependency_dependsIn (Q ScanPos : InstId) (BB : BlockId) :
    DependsIn (F.above BB (some ScanPos)) (localDependency F Q ScanPos BB) := by
  unfold localDependency
  split
  · exact .inr (F.atBegin_isMarker BB)
  · dsimp only
    split
    · exact getPointerDependencyFrom_dependsIn _ _ _
    · split
      · exact getCallSiteDependencyFrom_dependsIn _ _
      · exact getCallSiteDependencyFrom_dependsIn _ _
      · exact .inr rfl

theorem localDependency_isDep_iff {Q ScanPos : InstId} {BB : BlockId} :
    (localDependency F Q ScanPos BB).isDep = true ↔ MeetsLocal F Q ScanPos BB := by
  unfold localDependency MeetsLocal
  by_cases hhead : (F.insts BB).head? = some Q
  · obtain ⟨o, ho⟩ := FlowDepResult.isMarker_iff.mp (F.atBegin_isMarker BB)
    simp [hhead, ho, FlowDepResult.isDep]
  · rw [if_neg hhead]
    dsimp only
    split
    · simp [hhead, getPointerDependencyFrom_isDep_iff]
    · split
      · simp [hhead, getCallSiteDependencyFrom_isDep_iff]
      · simp [hhead, getCallSiteDependencyFrom_isDep_iff]
      · simp [FlowDepResult.isDep]

end Scan

/-! ## getDependency -/

section GetDependency

variable {AA : AliasAnalysis} {F : Function AA} {c : Caches} {Q : InstId}

theorem removeFromReverseMap_ok {κ : Type} [DecidableEq κ] {m m' : ReverseMap InstPtr κ}
    {p : InstPtr} {k : κ} (h : m.remove p k = .ok m') : removeFromReverseMap m p k = .ok m' := by
  simp only [removeFromReverseMap, h]

theorem of_removeFromReverseMap_ok {κ : Type} [DecidableEq κ] {m m' : ReverseMap InstPtr κ}
    {p : InstPtr} {k : κ} (h : removeFromReverseMap m p k = .ok m') : m.remove p k = .ok m' := by
  unfold removeFromReverseMap at h
  split at h
  · cases h
  · rename_i hm
    rw [hm, Except.ok.inj h]

/-- The result of a scan from `ScanPos`, at `Q` or before it. -/
theorem localOk_of_dependsIn {ScanPos : InstId} {BB : BlockId} {r : FlowDepResult}
    (hQ : Q ∈ F.insts BB) (hpos : ScanPos = Q ∨ [ScanPos, Q].Sublist (F.insts BB))
    (h : DependsIn (F.above BB (some ScanPos)) r) (hdep : r.isDep = true) : LocalOk F Q r := by
  rcases h with ⟨i, hi, hr⟩ | hm
  · have hbefore : [i, Q].Sublist (F.insts BB) := by
      rcases hpos with rfl | hpos
      · exact before_of_mem_above hQ hi
      · exact sublist_pair_trans (F.nodup BB)
          (before_of_mem_above (hpos.subset (List.mem_cons_self ..)) hi) hpos
    exact ⟨i, .inr hr, .inl ⟨BB, hbefore⟩⟩
  · obtain ⟨o, rfl⟩ := FlowDepResult.isMarker_iff.mp hm
    cases hdep

/-- A new local result, once the reverse map holds those of the other queries. -/
theorem Consistent.putLocal (h : Consistent F c) {m : ReverseMap InstPtr InstId}
    (hm : m.Represents fun Q' p => (∃ r, c.localDeps Q' = some r ∧ r.NamesPtr p) ∧ Q' ≠ Q)
    {r : FlowDepResult} (hr : LocalOk F Q r) {p : InstPtr} (hp : r.getInst = some p) :
    Consistent F { c with
      localDeps := Function.update c.localDeps Q (some r), reverseLocalDeps := m.insert p Q } := by
  refine h.of_locals rfl rfl (hm.insert.congr fun Q' p' => ?_) fun Q' r' hr' => ?_
  · by_cases hQ : Q' = Q
    · subst hQ
      simp [FlowDepResult.namesPtr_iff hr.isMarker, hp, eq_comm]
    · simp [hQ]
  · by_cases hQ : Q' = Q
    · subst hQ
      obtain rfl : r = r' := by simpa using hr'
      exact hr
    · simp only [Function.update_of_ne hQ] at hr'
      exact h.local_ok Q' r' hr'

theorem not_inverse_insert_other {m : ReverseMap InstPtr InstId}
    {localDeps : InstId → Option FlowDepResult} {o : OtherType} :
    ¬ Caches.Inverse F { c with localDeps, reverseLocalDeps := m.insert (.other o) Q } := by
  intro h
  obtain ⟨i, hi, _⟩ := h.local_key (.other o) (by simp [ReverseMap.insert])
  cases hi

/-- A scan, once the reverse map holds what the other queries name. -/
theorem scanLocal_spec (h : Consistent F c) {BB : BlockId} {ScanPos : InstId}
    (hmem : Q ∈ F.insts BB) (hpos : ScanPos = Q ∨ [ScanPos, Q].Sublist (F.insts BB))
    {m : ReverseMap InstPtr InstId}
    (hm : m.Represents fun Q' p => (∃ r, c.localDeps Q' = some r ∧ r.NamesPtr p) ∧ Q' ≠ Q) :
    (MeetsLocal F Q ScanPos BB → Consistent F (scanLocal F c m Q ScanPos BB).2) ∧
      ((scanLocal F c m Q ScanPos BB).2.Inverse F → MeetsLocal F Q ScanPos BB) := by
  rw [← localDependency_isDep_iff]
  have hin := localDependency_dependsIn (F := F) Q ScanPos BB
  unfold scanLocal
  generalize localDependency F Q ScanPos BB = r at hin ⊢
  by_cases hdep : r.isDep = true
  · have hok := localOk_of_dependsIn hmem hpos hin hdep
    have ⟨i, hi, _⟩ := hok
    have hp := FlowDepResult.getInst_eq_inst_iff.mpr hi
    refine ⟨fun _ => ?_, fun _ => hdep⟩
    simpa only [hp] using h.putLocal hm hok hp
  · obtain ⟨o, rfl⟩ : ∃ o, r = .other o := by
      rcases hin with ⟨i, _, hi⟩ | hmarker
      · exact absurd (FlowDepResult.isDep_iff.mpr ⟨i, hi⟩) hdep
      · exact FlowDepResult.isMarker_iff.mp hmarker
    exact ⟨fun hd => absurd hd hdep, fun hinv => absurd hinv not_inverse_insert_other⟩

/-- A query of an instruction returns. It keeps the caches consistent when it finds a dependence,
and only then does it leave the maps inverse. -/
theorem getDependency_spec (h : Consistent F c) (hQ : F.HasInst Q) :
    ∃ r c', getDependency F c Q = .ok (r, c') ∧
      c'.nonLocalPointerDeps = c.nonLocalPointerDeps ∧
      (FindsDependence F c Q → Consistent F c') ∧ (c'.Inverse F → FindsDependence F c Q) := by
  obtain ⟨BB, hBB⟩ := Option.isSome_iff_exists.mp hQ
  have hmem : Q ∈ F.insts BB := (F.getParent_iff Q BB).mp hBB
  unfold getDependency FindsDependence
  cases hc : c.localDeps Q with
  | none =>
    have hm : c.reverseLocalDeps.Represents
        fun Q' p => (∃ r, c.localDeps Q' = some r ∧ r.NamesPtr p) ∧ Q' ≠ Q :=
      h.locals.congr fun Q' p => by
        refine ⟨fun hr => ⟨hr, fun hQ' => ?_⟩, And.left⟩
        obtain ⟨r, hr, _⟩ := hr
        rw [hQ', hc] at hr
        cases hr
    refine ⟨(scanLocal F c c.reverseLocalDeps Q Q BB).1,
      (scanLocal F c c.reverseLocalDeps Q Q BB).2, ?_, rfl, ?_⟩
    · simp only [Option.getD_none, hBB]
      rfl
    · simpa [hBB] using scanLocal_spec h hmem (.inl rfl) hm
  | some r =>
    obtain ⟨i, hi, hpos⟩ := h.local_ok Q r hc
    rcases hi with rfl | rfl | rfl
    · -- a dirty result: it is taken out of the reverse map, and the scan starts at its instruction
      have hpos : i = Q ∨ [i, Q].Sublist (F.insts BB) := by
        rcases hpos with ⟨b, hb⟩ | ⟨hiQ, _⟩
        · have hQb := (F.getParent_iff Q b).mpr (hb.subset (by simp))
          rw [hBB] at hQb
          cases hQb
          exact .inr hb
        · exact .inl hiQ
      obtain ⟨m, hrem, hm⟩ := h.locals.remove (t := .inst i) (k := Q) ⟨_, hc, i, rfl, .inl rfl⟩
      have hm : m.Represents
          fun Q' p => (∃ r, c.localDeps Q' = some r ∧ r.NamesPtr p) ∧ Q' ≠ Q :=
        hm.congr fun Q' p => by
          refine and_congr_right fun hr => ⟨fun hne hQ' => hne ⟨?_, hQ'⟩, fun hne hx => hne hx.2⟩
          obtain ⟨r, hr, hp⟩ := hr
          rw [hQ', hc] at hr
          cases hr
          simpa [FlowDepResult.getInst, eq_comm] using hp.getInst
      refine ⟨(scanLocal F c m Q i BB).1, (scanLocal F c m Q i BB).2, ?_, rfl, ?_⟩
      · simp only [Option.getD_some, removeFromReverseMap_ok hrem, hBB]
        rfl
      · simpa [hBB] using scanLocal_spec h hmem hpos hm
    · exact ⟨_, c, rfl, rfl, fun _ => h, fun _ => trivial⟩
    · exact ⟨_, c, rfl, rfl, fun _ => h, fun _ => trivial⟩

end GetDependency

end FlowDep
end DepTaint
