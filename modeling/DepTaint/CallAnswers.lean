import DepTaint.ScanAgreement
import Mathlib.Algebra.BigOperators.Group.Finset.Basic

/-!
# CallAnswers

What `getNonLocalCallDependency` answers, from its caches or by scanning.

The entries of a call answer its query when there is one for each block that is reached backwards
from the block of the call through transparent blocks, and each is what a full scan of its block
finds, or `Unknown`. The caches keep such entries over the removal of instructions: an entry that
named the instruction becomes dirty, and the next query brings the list up to date.

* `LoopInv.updateBlock`: one iteration of the loop over the dirty blocks.
* `answerCall_spec`: a query ends, its entries answer it, and the caches stay in order.
-/

namespace DepTaint
namespace FlowDep

open Relation

section Calls

variable {S : FiniteSetting} {F : Function S.AA} {Q : InstId} {QB BB : BlockId}
  {short : BlockId → Prop} {es pre post : List NonLocalDepEntry}

/-! ## Answers -/

/-- What the query of a call asks of an instruction. -/
def callScanner (AA : AliasAnalysis) (QueryCS : InstId) : Scanner where
  skip _ := false
  verdict := callSiteVerdict AA QueryCS (AA.onlyReadsMemory QueryCS)

/-- The blocks with an entry. -/
abbrev blocksOf (es : List NonLocalDepEntry) : List BlockId := es.map NonLocalDepEntry.BB

/-- `y` is a predecessor of `x`, and the query passes through `x`. -/
def Follows (S : FiniteSetting) (QB : BlockId) (es : List NonLocalDepEntry) (x y : BlockId) : Prop :=
  y ∈ S.getPreds x ∧ (x = QB ∨ ⟨x, .other .nonLocal⟩ ∈ es)

/-- A query from `QB` comes to the block. -/
def Reached (S : FiniteSetting) (QB : BlockId) (es : List NonLocalDepEntry) (b : BlockId) : Prop :=
  TransGen (Follows S QB es) QB b

/-- The entries answer the query of `Q`, a call of block `QB`. -/
structure Answers (S : FiniteSetting) (F : Function S.AA) (short : BlockId → Prop) (Q : InstId)
    (QB : BlockId) (es : List NonLocalDepEntry) : Prop where
  nodup : (blocksOf es).Nodup
  blocks : ∀ b, b ∈ blocksOf es ↔ Reached S QB es b
  results : ∀ e ∈ es, Agrees (short e.BB) e.result ((callScanner S.AA Q).full F e.BB none)

/-- The block is reached from `QB` through blocks that a full scan finds transparent. -/
def LiveAcross (S : FiniteSetting) (F : Function S.AA) (Q : InstId) (QB b : BlockId) : Prop :=
  TransGen (fun x y => y ∈ S.getPreds x ∧
    (x = QB ∨ (callScanner S.AA Q).full F x none = .other .nonLocal)) QB b

/-- Without scans that are cut off, the entries are those of the plain search. -/
theorem Answers.mem_iff (h : Answers S F short Q QB es) (hshort : ∀ b, short b)
    {e : NonLocalDepEntry} : e ∈ es ↔
      LiveAcross S F Q QB e.BB ∧ e.result = (callScanner S.AA Q).full F e.BB none := by
  have hres : ∀ e ∈ es, e.result = (callScanner S.AA Q).full F e.BB none := by
    intro e he
    rcases h.results e he with hr | ⟨_, hx⟩
    · exact hr
    · exact absurd (hshort e.BB) hx
  have hfollow : ∀ x y, x ∈ blocksOf es ∨ x = QB → (Follows S QB es x y ↔ y ∈ S.getPreds x ∧
      (x = QB ∨ (callScanner S.AA Q).full F x none = .other .nonLocal)) := by
    intro x y hx
    refine and_congr_right fun _ => or_congr_right' fun hne => ?_
    obtain ⟨e, he, rfl⟩ := List.mem_map.mp (hx.resolve_right hne)
    rw [← hres e he]
    constructor
    · intro hmem
      have := List.inj_on_of_nodup_map h.nodup hmem he rfl
      rw [← this]
    · intro hr
      rw [← hr]
      exact he
  have hlive : ∀ b, b ∈ blocksOf es ↔ LiveAcross S F Q QB b := by
    intro b
    rw [h.blocks]
    constructor
    · intro hb
      induction hb with
      | single hxy => exact .single ((hfollow _ _ (.inr rfl)).mp hxy)
      | tail hx hxy ih => exact ih.tail ((hfollow _ _ (.inl ((h.blocks _).mpr hx))).mp hxy)
    · intro hb
      induction hb with
      | single hxy => exact .single ((hfollow _ _ (.inr rfl)).mpr hxy)
      | tail _ hxy ih => exact ih.tail ((hfollow _ _ (.inl ((h.blocks _).mpr ih))).mpr hxy)
  constructor
  · intro he
    exact ⟨(hlive e.BB).mp (List.mem_map_of_mem he), hres e he⟩
  · intro ⟨hb, hr⟩
    obtain ⟨e', he', hBB⟩ := List.mem_map.mp ((hlive e.BB).mpr hb)
    have hr' := hres e' he'
    rw [hBB, ← hr] at hr'
    obtain rfl : e' = e := by
      cases e
      cases e'
      cases hBB
      cases hr'
      rfl
    exact he'

theorem Reached.mono {es' : List NonLocalDepEntry} {b : BlockId} (h : Reached S QB es b)
    (hsub : ∀ x, ⟨x, .other .nonLocal⟩ ∈ es → ⟨x, .other .nonLocal⟩ ∈ es') :
    Reached S QB es' b := by
  have hle : Follows S QB es ≤ Follows S QB es' :=
    fun x _ hxy => ⟨hxy.1, hxy.2.imp_right (hsub x)⟩
  exact TransGen.mono hle QB b h

theorem Reached.mem_blocks {b : BlockId} (h : Reached S QB es b) : b ∈ S.blocks := by
  cases h with
  | single hxy => exact S.preds_mem _ _ hxy.1
  | tail _ hxy => exact S.preds_mem _ _ hxy.1

/-! ## Entries and the reverse map -/

/-- The reverse map is to hold the pointer for the call with these entries. -/
def Registered (es : List NonLocalDepEntry) (p : InstPtr) : Prop :=
  ∃ e ∈ es, e.result.isNonLocal = false ∧ e.result.getInst = some p

/-- The relation of the reverse map: `es` are the entries of `Q`, `R` is for the other calls. -/
def WithEntries (R : InstId → InstPtr → Prop) (Q : InstId) (es : List NonLocalDepEntry)
    (Q' : InstId) (p : InstPtr) : Prop :=
  (Q' = Q ∧ Registered es p) ∨ (Q' ≠ Q ∧ R Q' p)

theorem registered_perm {es' : List NonLocalDepEntry} (h : es'.Perm es) {p : InstPtr} :
    Registered es' p ↔ Registered es p := by
  simp only [Registered, h.mem_iff]

theorem registered_middle {e : NonLocalDepEntry} {p : InstPtr} :
    Registered (pre ++ e :: post) p ↔
      Registered (pre ++ post) p ∨ (e.result.isNonLocal = false ∧ e.result.getInst = some p) := by
  simp only [Registered, List.mem_append, List.mem_cons]
  constructor
  · intro ⟨x, hx, hp⟩
    rcases hx with hx | rfl | hx
    · exact .inl ⟨x, .inl hx, hp⟩
    · exact .inr hp
    · exact .inl ⟨x, .inr hx, hp⟩
  · intro h
    rcases h with ⟨x, hx, hp⟩ | hp
    · exact ⟨x, hx.imp_right .inr, hp⟩
    · exact ⟨e, .inr (.inl rfl), hp⟩

/-- The entries of a call: one for a block, each faithful. -/
structure CallEntriesOk (F : Function S.AA) (short : BlockId → Prop) (Q : InstId)
    (es : List NonLocalDepEntry) : Prop where
  nodup : (blocksOf es).Nodup
  faithful : ∀ e ∈ es, Faithful (callScanner S.AA Q) F e.BB none (short e.BB) e.result

theorem CallEntriesOk.entriesOk (h : CallEntriesOk F short Q es) : EntriesOk F es where
  nodup := h.nodup
  mem e he i hi := by
    rcases (h.faithful e he).names hi with hx | ⟨T, A, habove, _⟩
    · cases hx
    · have hmem : i ∈ F.above e.BB none := by simp [habove]
      exact mem_insts_of_above hmem

theorem CallEntriesOk.perm (h : CallEntriesOk F short Q es) {es' : List NonLocalDepEntry}
    (hp : es'.Perm es) : CallEntriesOk F short Q es' where
  nodup := (hp.map _).nodup_iff.mpr h.nodup
  faithful e he := h.faithful e (hp.mem_iff.mp he)

/-- What the other entries have registered is what all have, but for the instruction of the one. -/
theorem CallEntriesOk.registered_others {e : NonLocalDepEntry} {i : InstId}
    (h : CallEntriesOk F short Q (pre ++ e :: post)) (hi : e.result = .dirty (some i))
    {p : InstPtr} : Registered (pre ++ post) p ↔
      Registered (pre ++ e :: post) p ∧ p ≠ .inst i := by
  have hnames : e.result.Names i := by
    rw [hi]
    exact .inl rfl
  rw [registered_middle]
  constructor
  · intro hp
    refine ⟨.inl hp, ?_⟩
    rintro rfl
    -- only the one entry names the instruction
    obtain ⟨x, hx, _, hxi⟩ := hp
    have hmem : x ∈ pre ++ e :: post := by
      rcases List.mem_append.mp hx with hx | hx <;> simp [hx]
    have hxe := h.entriesOk.eq_of_names hmem (by simp)
      (FlowDepResult.getInst_eq_inst_iff.mp hxi) hnames
    subst hxe
    have hnd := List.Nodup.of_map _ h.nodup
    rw [List.nodup_middle, List.nodup_cons] at hnd
    exact hnd.1 hx
  · intro ⟨hp, hne⟩
    refine hp.resolve_right fun hx => hne ?_
    rw [hi] at hx
    exact (Option.some.inj hx.2).symm

/-! ## The loop over the dirty blocks -/

/-- What the scan of a block returns. -/
theorem callDep_eq (F : Function S.AA) (Q : InstId) (BB : BlockId) (scanPos : Option InstId) :
    (if F.above BB scanPos ≠ [] then
      getCallSiteDependencyFrom F Q (S.AA.onlyReadsMemory Q) scanPos BB
    else F.atBegin BB) = (callScanner S.AA Q).scanBlock F BB scanPos := by
  split
  · rfl
  · rename_i h
    rw [not_not] at h
    simp [Scanner.scanBlock, h, scan]

/-- The invariant of the loop; `n` entries are those the query started with, and `R` is what the
reverse map holds for the other calls. -/
structure LoopInv (S : FiniteSetting) (F : Function S.AA) (short : BlockId → Prop) (Q : InstId)
    (QB : BlockId) (R : InstId → InstPtr → Prop) (n : Nat) (s : CallScan) : Prop where
  entries : CallEntriesOk F short Q s.cache
  le : n ≤ (blocksOf s.cache).length
  sorted : SortedBlocks ((blocksOf s.cache).take n)
  appended : ∀ b ∈ (blocksOf s.cache).drop n, b ∈ s.visited
  preds : ∀ p ∈ S.getPreds QB, p ∈ blocksOf s.cache ∨ p ∈ s.dirtyBlocks
  closed : ∀ e ∈ s.cache, e.result = .other .nonLocal → ∀ p ∈ S.getPreds e.BB,
    p ∈ blocksOf s.cache ∨ p ∈ s.dirtyBlocks
  reached : ∀ b, b ∈ blocksOf s.cache ∨ b ∈ s.dirtyBlocks → Reached S QB s.cache b
  dirty : ∀ e ∈ s.cache, e.result.isDirty = true → e.BB ∈ s.dirtyBlocks ∧ e.BB ∉ s.visited
  visited : ∀ b ∈ s.visited, b ∈ blocksOf s.cache
  rev : s.reverseNonLocalDeps.Represents (WithEntries R Q s.cache)

variable {R : InstId → InstPtr → Prop} {n : Nat} {s : CallScan} {dirtyBlocks : List BlockId}

/-- A block that has been dealt with is taken off. -/
theorem LoopInv.drop (h : LoopInv S F short Q QB R n s) (hd : s.dirtyBlocks = BB :: dirtyBlocks)
    (hmem : BB ∈ blocksOf s.cache)
    (hclean : ∀ e ∈ s.cache, e.BB = BB → e.result.isDirty = false) :
    LoopInv S F short Q QB R n
      { s with dirtyBlocks := dirtyBlocks, visited := BB :: s.visited } := by
  have hrest : ∀ p, p ∈ blocksOf s.cache ∨ p ∈ s.dirtyBlocks →
      p ∈ blocksOf s.cache ∨ p ∈ dirtyBlocks := by
    intro p hp
    rw [hd, List.mem_cons] at hp
    rcases hp with hp | rfl | hp
    · exact .inl hp
    · exact .inl hmem
    · exact .inr hp
  exact {
    entries := h.entries
    le := h.le
    sorted := h.sorted
    appended := fun b hb => List.mem_cons_of_mem _ (h.appended b hb)
    preds := fun p hp => hrest p (h.preds p hp)
    closed := fun e he hr p hp => hrest p (h.closed e he hr p hp)
    reached := fun b hb => h.reached b (hb.imp_right fun hx => by rw [hd]; exact .tail _ hx)
    dirty := fun e he hr => by
      obtain ⟨hin, hout⟩ := h.dirty e he hr
      have hne : e.BB ≠ BB := fun hx => by simp [hclean e he hx] at hr
      rw [hd] at hin
      exact ⟨(List.mem_cons.mp hin).resolve_left hne, by simp [hne, hout]⟩
    visited := fun b hb => (List.mem_cons.mp hb).elim (fun hx => hx ▸ hmem) (h.visited b)
    rev := h.rev }

/-- The reverse map with the new entry. -/
theorem represents_put {m : ReverseMap InstPtr InstId} {Dep : FlowDepResult}
    (hm : m.Represents (WithEntries R Q (pre ++ post))) :
    (if Dep.isNonLocal then m
      else match Dep.getInst with
        | none => m
        | some Inst => m.insert Inst Q).Represents
      (WithEntries R Q (pre ++ ⟨BB, Dep⟩ :: post)) := by
  cases hDep : Dep.isNonLocal with
  | true =>
    refine hm.congr fun Q' p => ?_
    simp [WithEntries, registered_middle, hDep]
  | false =>
    cases hget : Dep.getInst with
    | none =>
      refine hm.congr fun Q' p => ?_
      simp [WithEntries, registered_middle, hget]
    | some I =>
      refine hm.insert.congr fun Q' p => ?_
      simp only [WithEntries, registered_middle, hDep, hget, Option.some.injEq, true_and]
      by_cases hQ : Q' = Q
      · simp [hQ, eq_comm]
      · simp [hQ]

theorem scanFor_eq {m : ReverseMap InstPtr InstId} {scanPos : Option InstId}
    {put : NonLocalDepEntry → List NonLocalDepEntry} :
    s.scanFor S F Q m BB scanPos put =
      let Dep := (callScanner S.AA Q).scanBlock F BB scanPos
      { cache := put ⟨BB, Dep⟩
        reverseNonLocalDeps :=
          if Dep.isNonLocal then m
          else match Dep.getInst with
            | none => m
            | some Inst => m.insert Inst Q
        dirtyBlocks :=
          if Dep.isNonLocal then (S.getPreds BB).reverse ++ s.dirtyBlocks else s.dirtyBlocks
        visited := s.visited } := by
  unfold CallScan.scanFor
  rw [callDep_eq]
  dsimp only
  split <;> rfl

/-- The block is scanned: `old` is its dirty entry, if there is one. -/
theorem LoopInv.scanFor (h : LoopInv S F short Q QB R n s)
    (hshort : ∀ b, short b → Short F b) (hd : s.dirtyBlocks = BB :: dirtyBlocks)
    (old : Option NonLocalDepEntry) (hcache : s.cache = pre ++ (old.toList ++ post))
    (hold : ∀ e ∈ old, e.BB = BB ∧ e.result.isDirty = true)
    (hnew : old = none → post = []) (hpre : BB ∉ blocksOf pre) (hpost : BB ∉ blocksOf post)
    {m : ReverseMap InstPtr InstId} (hm : m.Represents (WithEntries R Q (pre ++ post)))
    {scanPos : Option InstId} (hpos : Resumes (callScanner S.AA Q) F BB none scanPos)
    {put : NonLocalDepEntry → List NonLocalDepEntry} (hput : ∀ e, put e = pre ++ e :: post) :
    LoopInv S F short Q QB R n (CallScan.scanFor S F Q
      { s with dirtyBlocks := dirtyBlocks, visited := BB :: s.visited } m BB scanPos put) := by
  have hagrees : Agrees (short BB) ((callScanner S.AA Q).scanBlock F BB scanPos)
      ((callScanner S.AA Q).full F BB none) := hpos.rescan (hshort BB)
  have hclean : ((callScanner S.AA Q).scanBlock F BB scanPos).isDirty = false :=
    scan_ne_dirty (F.atBegin_isMarker BB) _ _
  rw [scanFor_eq]
  generalize (callScanner S.AA Q).scanBlock F BB scanPos = Dep at hagrees hclean
  dsimp only
  rw [hput]
  -- the blocks with an entry
  have hblocks : ∀ b, b ∈ blocksOf (pre ++ ⟨BB, Dep⟩ :: post) ↔ b = BB ∨ b ∈ blocksOf s.cache := by
    intro b
    rw [hcache]
    cases hopt : old with
    | none => simp [or_left_comm]
    | some e => simp [(hold e (by simp [hopt])).1, or_left_comm]
  have hkeep : ∀ e ∈ pre ++ post, e ∈ s.cache := by
    intro e he
    rw [hcache]
    rcases List.mem_append.mp he with he | he <;> simp [he]
  have hmem : ∀ e ∈ pre ++ ⟨BB, Dep⟩ :: post, e = ⟨BB, Dep⟩ ∨ (e ∈ s.cache ∧ e.BB ≠ BB) := by
    intro e he
    rcases List.mem_append.mp he with hx | hx
    · exact .inr ⟨hkeep e (by simp [hx]), fun hb => hpre (hb ▸ List.mem_map_of_mem hx)⟩
    · rcases List.mem_cons.mp hx with rfl | hx
      · exact .inl rfl
      · exact .inr ⟨hkeep e (by simp [hx]), fun hb => hpost (hb ▸ List.mem_map_of_mem hx)⟩
  -- no transparent entry is replaced
  have hnonlocal : ∀ x, (⟨x, .other .nonLocal⟩ : NonLocalDepEntry) ∈ s.cache →
      ⟨x, .other .nonLocal⟩ ∈ pre ++ (⟨BB, Dep⟩ : NonLocalDepEntry) :: post := by
    intro x hx
    rw [hcache, List.mem_append, List.mem_append] at hx
    rcases hx with hx | hx | hx
    · simp [hx]
    · have := (hold _ (by simpa using hx)).2
      cases this
    · simp [hx]
  have hdirtyBlocks : ∀ b, b ∈ dirtyBlocks →
      b ∈ (if Dep.isNonLocal then (S.getPreds BB).reverse ++ dirtyBlocks else dirtyBlocks) := by
    intro b hb
    split
    · exact List.mem_append_right _ hb
    · exact hb
  have hrest : ∀ p, p ∈ blocksOf s.cache ∨ p ∈ s.dirtyBlocks →
      p ∈ blocksOf (pre ++ ⟨BB, Dep⟩ :: post) ∨
        p ∈ (if Dep.isNonLocal then (S.getPreds BB).reverse ++ dirtyBlocks else dirtyBlocks) := by
    intro p hp
    rw [hd, List.mem_cons] at hp
    rcases hp with hp | rfl | hp
    · exact .inl ((hblocks p).mpr (.inr hp))
    · exact .inl ((hblocks p).mpr (.inl rfl))
    · exact .inr (hdirtyBlocks p hp)
  have hBB : Reached S QB (pre ++ ⟨BB, Dep⟩ :: post) BB :=
    (h.reached BB (.inr (by simp [hd]))).mono hnonlocal
  -- the list of the blocks, in which a new one comes last
  have hlist : blocksOf (pre ++ ⟨BB, Dep⟩ :: post) = blocksOf s.cache ∨
      blocksOf (pre ++ ⟨BB, Dep⟩ :: post) = blocksOf s.cache ++ [BB] := by
    rw [hcache]
    cases hopt : old with
    | none => exact .inr (by simp [hnew hopt])
    | some e => exact .inl (by simp [(hold e (by simp [hopt])).1])
  constructor
  · -- entries
    refine ⟨?_, fun e he => ?_⟩
    · have hnd := h.entries.nodup
      rw [hcache] at hnd
      have hsub : (blocksOf (pre ++ post)).Nodup := by
        refine hnd.sublist ?_
        simp only [blocksOf, List.map_append]
        exact (List.Sublist.refl _).append (List.sublist_append_right _ _)
      rw [blocksOf, List.map_append, List.map_cons, List.nodup_middle, List.nodup_cons]
      rw [blocksOf, List.map_append] at hsub
      exact ⟨fun hx => (List.mem_append.mp hx).elim hpre hpost, hsub⟩
    · rcases hmem e he with rfl | ⟨he, _⟩
      · exact faithful_of_agrees hclean hagrees
      · exact h.entries.faithful e he
  · -- le
    rcases hlist with hl | hl
    · rw [hl]
      exact h.le
    · rw [hl, List.length_append]
      exact Nat.le_trans h.le (Nat.le_add_right ..)
  · -- sorted
    rcases hlist with hl | hl
    · rw [hl]
      exact h.sorted
    · rw [hl, List.take_append_of_le_length h.le]
      exact h.sorted
  · -- appended
    intro b hb
    rcases hlist with hl | hl
    · rw [hl] at hb
      exact List.mem_cons_of_mem _ (h.appended b hb)
    · rw [hl, List.drop_append_of_le_length h.le] at hb
      rcases List.mem_append.mp hb with hb | hb
      · exact List.mem_cons_of_mem _ (h.appended b hb)
      · rw [List.mem_singleton.mp hb]
        exact List.mem_cons_self ..
  · -- preds
    exact fun p hp => hrest p (h.preds p hp)
  · -- closed
    intro e he hr p hp
    rcases hmem e he with rfl | ⟨he, _⟩
    · have hDep : Dep = .other .nonLocal := hr
      have hp' : p ∈ (S.getPreds BB).reverse ++ dirtyBlocks := by simp [show p ∈ S.getPreds BB from hp]
      refine .inr ?_
      simpa [hDep, FlowDepResult.isNonLocal] using hp'
    · exact hrest p (h.closed e he hr p hp)
  · -- reached
    intro b hb
    have hb' : b ∈ blocksOf s.cache ∨ b ∈ s.dirtyBlocks ∨
        (Dep.isNonLocal = true ∧ b ∈ S.getPreds BB) := by
      rcases hb with hb | hb
      · rcases (hblocks b).mp hb with rfl | hb
        · exact .inr (.inl (by simp [hd]))
        · exact .inl hb
      · split at hb
        · rename_i hloc
          rcases List.mem_append.mp hb with hb | hb
          · exact .inr (.inr ⟨hloc, List.mem_reverse.mp hb⟩)
          · exact .inr (.inl (by simp [hd, hb]))
        · exact .inr (.inl (by simp [hd, hb]))
    rcases hb' with hb | hb | ⟨hloc, hb⟩
    · exact (h.reached b (.inl hb)).mono hnonlocal
    · exact (h.reached b (.inr hb)).mono hnonlocal
    · refine TransGen.tail hBB ⟨hb, .inr ?_⟩
      have hDep : Dep = .other .nonLocal := by simpa [FlowDepResult.isNonLocal] using hloc
      simp [hDep]
  · -- dirty
    intro e he hr
    rcases hmem e he with rfl | ⟨he, hne⟩
    · rw [hclean] at hr
      cases hr
    · obtain ⟨hin, hout⟩ := h.dirty e he hr
      rw [hd] at hin
      refine ⟨hdirtyBlocks _ ((List.mem_cons.mp hin).resolve_left hne), ?_⟩
      simp [hne, hout]
  · -- visited
    intro b hb
    refine (hblocks b).mpr ((List.mem_cons.mp hb).imp_right (h.visited b))
  · -- rev
    exact represents_put hm

/-- A visit takes the block out of the sum. -/
theorem pending_visit {b : BlockId} {visited dirty dirty' : List BlockId}
    {cache cache' : List NonLocalDepEntry} {m m' : ReverseMap InstPtr InstId} (hb : b ∈ S.blocks)
    (hv : b ∉ visited) (hlen : dirty'.length ≤ (S.getPreds b).length + dirty.length) :
    CallScan.pending S ⟨cache', m', dirty', b :: visited⟩ <
      CallScan.pending S ⟨cache, m, b :: dirty, visited⟩ := by
  have herase : S.blocks.filter (· ∉ b :: visited) = (S.blocks.filter (· ∉ visited)).erase b := by
    ext x
    simp only [Finset.mem_filter, List.mem_cons, not_or, Finset.mem_erase]
    constructor
    · intro ⟨hx, hne, hx'⟩
      exact ⟨hne, hx, hx'⟩
    · intro ⟨hne, hx, hx'⟩
      exact ⟨hx, hne, hx'⟩
  have hsum := Finset.add_sum_erase (S.blocks.filter (· ∉ visited))
    (fun x => (S.getPreds x).length) (Finset.mem_filter.mpr ⟨hb, hv⟩)
  simp only [CallScan.pending, herase, List.length_cons]
  omega

/-- An iteration keeps the invariant and comes closer to the end. -/
theorem LoopInv.updateBlock (h : LoopInv S F short Q QB R n s)
    (hshort : ∀ b, short b → Short F b) :
    ∃ s', s.updateBlock S F Q n = .ok s' ∧ LoopInv S F short Q QB R n s' ∧
      (s.dirtyBlocks = [] → s'.dirtyBlocks = []) ∧
      (s.dirtyBlocks ≠ [] → s'.pending S < s.pending S) := by
  unfold CallScan.updateBlock
  cases hd : s.dirtyBlocks with
  | nil => exact ⟨s, rfl, h, fun _ => hd, fun hx => absurd rfl hx⟩
  | cons BB dirtyBlocks =>
    have hs : s = ⟨s.cache, s.reverseNonLocalDeps, BB :: dirtyBlocks, s.visited⟩ := by rw [← hd]
    have hBBS : BB ∈ S.blocks := (h.reached BB (.inr (by simp [hd]))).mem_blocks
    dsimp only
    by_cases hvis : BB ∈ s.visited
    · -- the block has been dealt with
      have hclean : ∀ e ∈ s.cache, e.BB = BB → e.result.isDirty = false := by
        intro e he hBB
        rw [Bool.eq_false_iff]
        intro hr
        exact (h.dirty e he hr).2 (hBB ▸ hvis)
      have hdrop := h.drop hd (h.visited BB hvis) hclean
      rw [if_pos hvis]
      refine ⟨_, rfl, ?_, by simp, fun _ => ?_⟩
      · exact {
          entries := hdrop.entries
          le := hdrop.le
          sorted := hdrop.sorted
          appended := h.appended
          preds := hdrop.preds
          closed := hdrop.closed
          reached := hdrop.reached
          dirty := fun e he hr =>
            ⟨(hdrop.dirty e he hr).1, fun hx => (hdrop.dirty e he hr).2 (by simp [hx])⟩
          visited := h.visited
          rev := h.rev }
      · simp only [CallScan.pending, hd, List.length_cons]
        omega
    · rw [if_neg hvis]
      have hlt : ∀ (m : ReverseMap InstPtr InstId) (scanPos : Option InstId)
          (put : NonLocalDepEntry → List NonLocalDepEntry),
          (CallScan.scanFor S F Q { s with dirtyBlocks := dirtyBlocks, visited := BB :: s.visited }
            m BB scanPos put).pending S < s.pending S := by
        intro m scanPos put
        rw [scanFor_eq]
        conv_rhs => rw [hs]
        refine pending_visit hBBS hvis ?_
        dsimp only
        split
        · simp
        · exact Nat.le_add_left ..
      cases hfind : findEntry (s.cache.take n) BB with
      | none =>
        have hnot : BB ∉ blocksOf s.cache := by
          intro hmem
          rw [← List.take_append_drop n (blocksOf s.cache)] at hmem
          rcases List.mem_append.mp hmem with hmem | hmem
          · have hsorted := h.sorted
            rw [← List.map_take] at hsorted hmem
            exact not_mem_of_findEntry_eq_none hsorted hfind hmem
          · exact hvis (h.appended BB hmem)
        refine ⟨_, rfl, ?_, by simp, fun _ => hlt _ _ _⟩
        have hcache : s.cache = s.cache ++ ((none : Option NonLocalDepEntry).toList ++ []) := by simp
        exact h.scanFor hshort hd none hcache (by simp) (fun _ => rfl) hnot (by simp)
          (by simpa using h.rev) (.inl rfl) fun e => rfl
      | some k =>
        obtain ⟨e, he, hBB⟩ := findEntry_eq_some hfind
        have hek : s.cache[k]? = some e := by
          rw [List.getElem?_take] at he
          split at he
          · exact he
          · cases he
        obtain ⟨hk, hek'⟩ := List.getElem?_eq_some_iff.mp hek
        -- the entry parts the list
        have hsplit : s.cache = s.cache.take k ++ e :: s.cache.drop (k + 1) := by
          rw [← hek', List.getElem_cons_drop, List.take_append_drop]
        have hput : ∀ x, s.cache.set k x = s.cache.take k ++ x :: s.cache.drop (k + 1) :=
          fun x => by rw [List.set_eq_take_append_cons_drop, if_pos hk]
        have hnd := h.entries.nodup
        rw [hsplit, blocksOf, List.map_append, List.map_cons, List.nodup_middle, List.nodup_cons,
          hBB] at hnd
        have hpre : BB ∉ blocksOf (s.cache.take k) := fun hx => hnd.1 (List.mem_append_left _ hx)
        have hpost : BB ∉ blocksOf (s.cache.drop (k + 1)) :=
          fun hx => hnd.1 (List.mem_append_right _ hx)
        -- a block with a result is done
        have hdone : e.result.isDirty = false → LoopInv S F short Q QB R n
              { s with dirtyBlocks := dirtyBlocks, visited := BB :: s.visited } ∧
            CallScan.pending S { s with dirtyBlocks := dirtyBlocks, visited := BB :: s.visited } <
              s.pending S := by
          intro hr
          have hmem := List.mem_of_getElem? hek
          have hclean : ∀ x ∈ s.cache, x.BB = BB → x.result.isDirty = false := by
            intro x hx hxBB
            rw [List.inj_on_of_nodup_map h.entries.nodup hx hmem (hxBB.trans hBB.symm), hr]
          refine ⟨h.drop hd (hBB ▸ List.mem_map_of_mem hmem) hclean, ?_⟩
          conv_rhs => rw [hs]
          exact pending_visit hBBS hvis (Nat.le_add_left ..)
        simp only [hek, Option.map_some, Option.getD_some]
        cases hr : e.result with
        | dirty pos =>
          have hold : ∀ x ∈ some e, x.BB = BB ∧ x.result.isDirty = true := by
            intro x hx
            cases hx
            exact ⟨hBB, by rw [hr]; rfl⟩
          have hres : Resumes (callScanner S.AA Q) F BB none pos := by
            have := h.entries.faithful e (List.mem_of_getElem? hek)
            rw [hr, hBB] at this
            exact this
          have hentries : CallEntriesOk F short Q (s.cache.take k ++ e :: s.cache.drop (k + 1)) :=
            hsplit ▸ h.entries
          have hrev : s.reverseNonLocalDeps.Represents
              (WithEntries R Q (s.cache.take k ++ e :: s.cache.drop (k + 1))) := hsplit ▸ h.rev
          cases pos with
          | none =>
            refine ⟨_, rfl, ?_, by simp, fun _ => hlt _ _ _⟩
            refine h.scanFor hshort hd (some e) hsplit hold (by simp) hpre hpost
              (hrev.congr fun Q' p => ?_) hres hput
            simp [WithEntries, registered_middle, hr, FlowDepResult.getInst]
          | some i =>
            have hreg : WithEntries R Q (s.cache.take k ++ e :: s.cache.drop (k + 1)) Q
                (.inst i) :=
              .inl ⟨rfl, e, by simp, by rw [hr]; rfl, by rw [hr]; rfl⟩
            obtain ⟨m, hrem, hm⟩ := hrev.remove hreg
            refine ⟨_, by simp only [removeFromReverseMap_ok hrem]; rfl, ?_, by simp,
              fun _ => hlt _ _ _⟩
            refine h.scanFor hshort hd (some e) hsplit hold (by simp) hpre hpost
              (hm.congr fun Q' p => ?_) hres hput
            simp only [WithEntries, hentries.registered_others hr]
            by_cases hQ : Q' = Q
            · simp [hQ, and_comm]
            · simp [hQ]
        | clobber i =>
          obtain ⟨hinv, hpending⟩ := hdone (by rw [hr]; rfl)
          exact ⟨_, rfl, hinv, by simp, fun _ => hpending⟩
        | defn i =>
          obtain ⟨hinv, hpending⟩ := hdone (by rw [hr]; rfl)
          exact ⟨_, rfl, hinv, by simp, fun _ => hpending⟩
        | other o =>
          obtain ⟨hinv, hpending⟩ := hdone (by rw [hr]; rfl)
          exact ⟨_, rfl, hinv, by simp, fun _ => hpending⟩

/-- The loop ends with an empty worklist. -/
theorem LoopInv.updateBlocks (h : LoopInv S F short Q QB R s.cache.length s)
    (hshort : ∀ b, short b → Short F b) :
    ∃ s', s.updateBlocks S F Q = .ok s' ∧ LoopInv S F short Q QB R s.cache.length s' ∧
      s'.dirtyBlocks = [] :=
  iterM_drains (fun _ hs => hs.updateBlock hshort) h (Nat.le_refl _)

/-- At the end the entries answer the query. -/
theorem LoopInv.answers (h : LoopInv S F short Q QB R n s) (hd : s.dirtyBlocks = []) :
    Answers S F short Q QB s.cache where
  nodup := h.entries.nodup
  blocks b := by
    refine ⟨fun hb => h.reached b (.inl hb), fun hb => ?_⟩
    have hnil : ∀ p, p ∉ s.dirtyBlocks := by simp [hd]
    have hpreds : ∀ p ∈ S.getPreds QB, p ∈ blocksOf s.cache :=
      fun p hp => (h.preds p hp).resolve_right (hnil p)
    induction hb with
    | single hxy => exact hpreds _ hxy.1
    | tail _ hxy ih =>
      rcases hxy.2 with rfl | hx
      · exact hpreds _ hxy.1
      · exact (h.closed _ hx rfl _ hxy.1).resolve_right (hnil _)
  results e he := by
    refine (h.entries.faithful e he).agrees ?_
    rw [Bool.eq_false_iff]
    intro hr
    have := (h.dirty e he hr).1
    rw [hd] at this
    cases this

/-! ## The caches of the calls -/

/-- The record of a call of block `QB`. -/
structure CallInfoOk (S : FiniteSetting) (F : Function S.AA) (short : BlockId → Prop) (Q : InstId)
    (QB : BlockId) (info : PerInstNLInfo) : Prop where
  entries : CallEntriesOk F short Q info.first
  preds : info.first ≠ [] → ∀ p ∈ S.getPreds QB, p ∈ blocksOf info.first
  closed : ∀ e ∈ info.first, e.result = .other .nonLocal → ∀ p ∈ S.getPreds e.BB,
    p ∈ blocksOf info.first
  reached : ∀ b ∈ blocksOf info.first, Reached S QB info.first b
  clean : info.second = false → ∀ e ∈ info.first, e.result.isDirty = false

structure CallInv (S : FiniteSetting) (F : Function S.AA) (short : BlockId → Prop)
    (c : CallCaches) : Prop where
  infos : ∀ Q info, c.nonLocalDeps Q = some info →
    ∃ QB, F.getParent Q = some QB ∧ CallInfoOk S F short Q QB info
  rev : c.reverseNonLocalDeps.Represents fun Q p =>
    ∃ info, c.nonLocalDeps Q = some info ∧ Registered info.first p

theorem callInv_empty : CallInv S F short {} where
  infos := by simp
  rev := ReverseMap.represents_empty.congr fun Q p => by simp

variable {c : CallCaches} {info : PerInstNLInfo}

/-- Entries without a dirty one answer the query. -/
theorem CallInfoOk.answers (h : CallInfoOk S F short Q QB info) (hne : info.first ≠ [])
    (hclean : ∀ e ∈ info.first, e.result.isDirty = false) :
    Answers S F short Q QB info.first where
  nodup := h.entries.nodup
  blocks b := by
    refine ⟨h.reached b, fun hb => ?_⟩
    induction hb with
    | single hxy => exact h.preds hne _ hxy.1
    | tail _ hxy ih =>
      rcases hxy.2 with rfl | hx
      · exact h.preds hne _ hxy.1
      · exact h.closed _ hx rfl _ hxy.1
  results e he := (h.entries.faithful e he).agrees (hclean e he)

/-- What the reverse map is to hold for the calls. -/
def CallNames (c : CallCaches) (Q : InstId) (p : InstPtr) : Prop :=
  ∃ info, c.nonLocalDeps Q = some info ∧ Registered info.first p

theorem registered_nil {p : InstPtr} : ¬ Registered [] p := by simp [Registered]

/-- The query before its loop. -/
theorem startScan_inv (h : CallInv S F short c) (hQ : F.getParent Q = some QB) :
    LoopInv S F short Q QB (CallNames c)
      (c.startScan S ((c.nonLocalDeps Q).getD {}) QB).cache.length
      (c.startScan S ((c.nonLocalDeps Q).getD {}) QB) := by
  generalize hinfo : (c.nonLocalDeps Q).getD {} = info
  unfold CallCaches.startScan
  by_cases hne : info.first = []
  · have hrev : c.reverseNonLocalDeps.Represents (WithEntries (CallNames c) Q []) := by
      refine h.rev.congr fun Q' p => ?_
      by_cases hQQ : Q' = Q
      · subst hQQ
        simp only [WithEntries, registered_nil, and_false, ne_eq, not_true_eq_false, false_and,
          or_self, iff_false]
        intro ⟨info', hinfo', hp⟩
        rw [hinfo', Option.getD_some] at hinfo
        rw [hinfo, hne] at hp
        exact registered_nil hp
      · simp [WithEntries, CallNames, hQQ]
    simp only [hne, ne_eq, not_true_eq_false, if_false]
    exact {
      entries := ⟨by simp, by simp⟩
      le := Nat.le_refl _
      sorted := by simp
      appended := by simp
      preds := fun p hp => .inr (List.mem_reverse.mpr hp)
      closed := by simp
      reached := fun b hb => by
        refine .single ⟨?_, .inl rfl⟩
        simpa using hb
      dirty := by simp
      visited := by simp
      rev := hrev }
  · have hsome : c.nonLocalDeps Q = some info := by
      cases hc : c.nonLocalDeps Q with
      | none =>
        rw [hc, Option.getD_none] at hinfo
        exact absurd (by rw [← hinfo]) hne
      | some info' =>
        rw [hc, Option.getD_some] at hinfo
        rw [hinfo]
    obtain ⟨QB', hQB', hok⟩ := h.infos Q info hsome
    rw [hQ] at hQB'
    cases hQB'
    have hperm : (info.first.insertionSort fun a b => a.BB ≤ b.BB).Perm info.first :=
      List.perm_insertionSort _ _
    have hblocks : ∀ b, b ∈ blocksOf (info.first.insertionSort fun a b => a.BB ≤ b.BB) ↔
        b ∈ blocksOf info.first := fun b => (hperm.map _).mem_iff
    have hrev : c.reverseNonLocalDeps.Represents
        (WithEntries (CallNames c) Q (info.first.insertionSort fun a b => a.BB ≤ b.BB)) := by
      refine h.rev.congr fun Q' p => ?_
      by_cases hQQ : Q' = Q
      · subst hQQ
        simp [WithEntries, hsome, registered_perm hperm]
      · simp [WithEntries, CallNames, hQQ]
    simp only [ne_eq, hne, not_false_eq_true, if_true]
    exact {
      entries := hok.entries.perm hperm
      le := by simp
      sorted := by
        rw [List.take_of_length_le (by simp)]
        exact sortedBlocks_insertionSort _
      appended := by
        rw [List.drop_eq_nil_of_le (by simp)]
        simp
      preds := fun p hp => .inl ((hblocks p).mpr (hok.preds hne p hp))
      closed := fun e he hr p hp =>
        .inl ((hblocks p).mpr (hok.closed e (hperm.mem_iff.mp he) hr p hp))
      reached := fun b hb => by
        have hb' : b ∈ blocksOf info.first := by
          rcases hb with hb | hb
          · exact (hblocks b).mp hb
          · obtain ⟨e, he, rfl⟩ := List.mem_map.mp (List.mem_reverse.mp hb)
            exact List.mem_map_of_mem (List.mem_filter.mp he).1
        exact (hok.reached b hb').mono fun x hx => hperm.mem_iff.mpr hx
      dirty := fun e he hr => by
        refine ⟨List.mem_reverse.mpr (List.mem_map_of_mem ?_), by simp⟩
        exact List.mem_filter.mpr ⟨hperm.mem_iff.mp he, hr⟩
      visited := by simp
      rev := hrev }

/-- A query ends; its entries answer it, and the caches stay in order. -/
theorem answerCall_spec (h : CallInv S F short c)
    (hshort : ∀ b, short b → Short F b) (hQ : F.getParent Q = some QB) :
    ∃ es c', answerCall S F Q c = .ok (es, c') ∧ CallInv S F short c' ∧
      Answers S F short Q QB es := by
  unfold answerCall
  by_cases hcached : ((c.nonLocalDeps Q).getD {}).first ≠ [] ∧
      ((c.nonLocalDeps Q).getD {}).second = false
  · obtain ⟨hne, hclean⟩ := hcached
    rw [if_pos ⟨hne, hclean⟩]
    cases hc : c.nonLocalDeps Q with
    | none =>
      rw [hc] at hne
      exact absurd rfl hne
    | some info =>
      rw [hc, Option.getD_some] at hne hclean
      obtain ⟨QB', hQB', hok⟩ := h.infos Q info hc
      rw [hQ] at hQB'
      cases hQB'
      exact ⟨_, c, rfl, h, hok.answers hne (hok.clean hclean)⟩
  · rw [if_neg hcached, hQ]
    obtain ⟨s, hs, hinv, hd⟩ := (startScan_inv h hQ).updateBlocks hshort
    have hanswers := hinv.answers hd
    refine ⟨s.cache, _, by simp only [hs]; rfl, ⟨fun Q' info hinfo => ?_, ?_⟩, hanswers⟩
    · by_cases hQQ : Q' = Q
      · subst hQQ
        simp only [Function.update_self, Option.some.injEq] at hinfo
        subst hinfo
        have hnil : ∀ p, p ∉ s.dirtyBlocks := by simp [hd]
        refine ⟨QB, hQ, hinv.entries, ?_, ?_, ?_, ?_⟩
        · exact fun _ p hp => (hinv.preds p hp).resolve_right (hnil p)
        · exact fun e he hr p hp => (hinv.closed e he hr p hp).resolve_right (hnil p)
        · exact fun b hb => hinv.reached b (.inl hb)
        · intro _ e he
          rw [Bool.eq_false_iff]
          exact fun hr => hnil _ (hinv.dirty e he hr).1
      · simp only [Function.update_of_ne hQQ] at hinfo
        exact h.infos Q' info hinfo
    · refine hinv.rev.congr fun Q' p => ?_
      by_cases hQQ : Q' = Q
      · subst hQQ
        simp [WithEntries]
      · simp [WithEntries, CallNames, hQQ]

end Calls

end FlowDep
end DepTaint
