import DepTaint.WalkPairs

/-!
# WalkCoverage

What a walk for a pointer has found, and what it has still to look at.

`Covers` says that a result vector answers a query: from the first block on, the search has gone on
in all the predecessors, each with the address that the pointer has there, and it ends only at blocks
that are reported. `Answered` says the same of the paths backwards, without the search.

* `WalkCovers.part`: every block that is marked waits, or is reported, or is transparent with all its
  predecessors marked.
* `WalkCovers.over`: when the walk is over its result covers the query.
-/

namespace DepTaint
namespace FlowDep

section Walk

variable {S : Setting} {F : Function S.AA} {c c' : Caches} {w w' : Walk S} {f : Frame S}
  {Loc : Location} {isLoad : Bool} {b BB : BlockId} {a : Option Value}
  {result result' : List NonLocalDepResult} {visited visited' : Visited}

/-! ## Answers -/

/-- An access at `a` depends on nothing in `BB`, or the entry block does not reach it. The location
may have become larger, or have lost its tag. -/
def Passes (F : Function S.AA) (Loc : Location) (isLoad : Bool) (BB : BlockId) (a : Option Value) :
    Prop :=
  (∃ l, Loc.Wider l ∧ l.ptr = a ∧
    (ptrScanner S.AA l isLoad).full F BB none = .other .nonLocal) ∨
  ∃ isReachable, S.DT = some isReachable ∧ isReachable BB = false

/-- The predecessors of `BB` are marked, each with the address that `a` has there. -/
def Expands (S : Setting) (visited : Visited) (BB : BlockId) (a : Option Value) : Prop :=
  ∃ A, S.phi.getAddr A = a ∧ ∀ p ∈ S.getPreds BB, visited p = some (S.predAddr A BB p)

/-- A result is the dependence in its block, or `Unknown`. -/
def Reports (F : Function S.AA) (Loc : Location) (isLoad : Bool) (r : NonLocalDepResult) : Prop :=
  r.result = .other .unknown ∨
    ∃ l, Loc.Wider l ∧ l.ptr = r.address ∧ r.result ≠ .other .nonLocal ∧
      r.result = (ptrScanner S.AA l isLoad).full F r.BB none

def Reported (result : List NonLocalDepResult) (BB : BlockId) (a : Option Value) : Prop :=
  ∃ r ∈ result, r.BB = BB ∧ r.address = a

/-- `result` answers the query for `Loc` from the end of `FromBB`, after the blocks `visited`. -/
structure Covers (F : Function S.AA) (Loc : Location) (isLoad : Bool) (FromBB : BlockId)
    (visited : Visited) (result : List NonLocalDepResult) : Prop where
  reports : ∀ r ∈ result, Reports F Loc isLoad r
  first : Reported result FromBB Loc.ptr ∨ Expands S visited FromBB Loc.ptr
  rest : ∀ b a, visited b = some a →
    Reported result b a ∨ Passes F Loc isLoad b a ∧ Expands S visited b a

/-- `path` goes backwards from `b`. -/
def BackwardPath (S : Setting) : BlockId → List BlockId → Prop
  | _, [] => True
  | b, p :: path => p ∈ S.getPreds b ∧ BackwardPath S p path

/-- Along `path`, back from `b`, the pointer is followed to a block that is reported, or through
blocks that all pass it on. -/
inductive Traced (F : Function S.AA) (Loc : Location) (isLoad : Bool)
    (result : List NonLocalDepResult) : BlockId → Option Value → List BlockId → Prop
  | reported {b : BlockId} {a : Option Value} {path : List BlockId} (h : Reported result b a) :
      Traced F Loc isLoad result b a path
  | last {b : BlockId} {a : Option Value} (h : Passes F Loc isLoad b a) :
      Traced F Loc isLoad result b a []
  | step {b p : BlockId} {A : S.phi.Addr} {path : List BlockId}
      (h : Passes F Loc isLoad b (S.phi.getAddr A))
      (hpath : Traced F Loc isLoad result p (S.predAddr A b p) path) :
      Traced F Loc isLoad result b (S.phi.getAddr A) (p :: path)

/-- `result` answers the query for `Loc` from the end of `FromBB`, with all paths backwards. -/
structure Answered (F : Function S.AA) (Loc : Location) (isLoad : Bool) (FromBB : BlockId)
    (result : List NonLocalDepResult) : Prop where
  reports : ∀ r ∈ result, Reports F Loc isLoad r
  paths : Reported result FromBB Loc.ptr ∨ ∃ A, S.phi.getAddr A = Loc.ptr ∧
    ∀ p path, BackwardPath S FromBB (p :: path) →
      Traced F Loc isLoad result p (S.predAddr A FromBB p) path

theorem Covers.traced {FromBB : BlockId} (h : Covers F Loc isLoad FromBB visited result)
    {path : List BlockId} (hv : visited b = some a) (hpath : BackwardPath S b path) :
    Traced F Loc isLoad result b a path := by
  induction path generalizing b a with
  | nil =>
    rcases h.rest b a hv with hreported | ⟨hpasses, _⟩
    · exact .reported hreported
    · exact .last hpasses
  | cons p path ih =>
    rcases h.rest b a hv with hreported | ⟨hpasses, A, rfl, hpreds⟩
    · exact .reported hreported
    · exact .step hpasses (ih (hpreds p hpath.1) hpath.2)

/-- A search that covers the query has followed every path. -/
theorem Covers.answered {FromBB : BlockId} (h : Covers F Loc isLoad FromBB visited result) :
    Answered F Loc isLoad FromBB result where
  reports := h.reports
  paths := h.first.imp_right fun ⟨A, hA, hpreds⟩ =>
    ⟨A, hA, fun p _ hpath => h.traced (hpreds p hpath.1) hpath.2⟩

theorem Expands.mono (h : Expands S visited BB a)
    (hv : ∀ b a, visited b = some a → visited' b = some a) : Expands S visited' BB a := by
  obtain ⟨A, hA, hpreds⟩ := h
  exact ⟨A, hA, fun p hp => hv p _ (hpreds p hp)⟩

theorem Reported.mono (h : Reported result BB a) (hr : ∀ r ∈ result, r ∈ result') :
    Reported result' BB a := by
  obtain ⟨r, hr', h⟩ := h
  exact ⟨r, hr r hr', h⟩

theorem Reported.concat {r : FlowDepResult} : Reported (result ++ [⟨BB, r, a⟩]) BB a :=
  ⟨⟨BB, r, a⟩, by simp, rfl, rfl⟩

theorem reports_concat_unknown (h : ∀ r ∈ result, Reports F Loc isLoad r) :
    ∀ r ∈ result ++ [⟨BB, .other .unknown, a⟩], Reports F Loc isLoad r := by
  intro r hr
  rcases List.mem_append.mp hr with hr | hr
  · exact h r hr
  · rw [List.mem_singleton.mp hr]
    exact .inl rfl

/-! ## One block -/

/-- What the lookup for a block says about it. -/
theorem passes_of_agrees {l : Location} (hwider : Loc.Wider l) (hptr : l.ptr = a)
    {Dep : FlowDepResult} (h : Agrees False Dep ((ptrScanner S.AA l isLoad).full F BB none))
    (hopen : Opens S ⟨BB, Dep⟩) : Passes F Loc isLoad BB a := by
  rcases hopen with hnl | hreach
  · refine .inl ⟨l, hwider, hptr, ?_⟩
    have hDep : Dep = .other .nonLocal := by simpa [FlowDepResult.isNonLocal] using hnl
    rcases h with h | ⟨h, _⟩
    · rw [← h, hDep]
    · rw [h] at hDep
      cases hDep
  · exact .inr hreach

theorem reports_of_agrees {l : Location} (hwider : Loc.Wider l) {r : NonLocalDepResult}
    {Dep : FlowDepResult} (hptr : l.ptr = r.address)
    (h : Agrees False Dep ((ptrScanner S.AA l isLoad).full F r.BB none))
    (hclosed : ¬ Opens S ⟨r.BB, Dep⟩) (hr : r.result = .other .unknown ∨ r.result = Dep) :
    Reports F Loc isLoad r := by
  rcases hr with hr | hr
  · exact .inl hr
  · rcases h with h | ⟨h, _⟩
    · refine .inr ⟨l, hwider, hptr, fun hnl => hclosed (.inl ?_), hr.trans h⟩
      rw [← hr, hnl]
      rfl
    · exact .inl (hr.trans h)

/-- A cached entry is reported unless the search goes on from its block. -/
theorem cachedResult_of_not_opens (addr : Option Value) {e : NonLocalDepEntry}
    (h : ¬ Opens S e) : ∃ r, cachedResult S addr e = some r ∧ r.BB = e.BB ∧ r.address = addr ∧
      (r.result = .other .unknown ∨ r.result = e.result) := by
  unfold cachedResult
  rw [if_neg fun hnl => h (.inl hnl)]
  split
  next hDT => exact ⟨_, rfl, rfl, rfl, .inl rfl⟩
  next isReachable hDT =>
    have hreach : isReachable e.BB = true := by
      by_contra hx
      exact h (.inr ⟨_, hDT, by simpa using hx⟩)
    rw [if_pos hreach]
    exact ⟨_, rfl, rfl, rfl, .inr rfl⟩

theorem cachedResult_of_opens {addr : Option Value} {e : NonLocalDepEntry} (h : Opens S e) :
    cachedResult S addr e = none := by
  unfold cachedResult
  split
  · rfl
  · rename_i hnl
    rcases h with hx | ⟨isReachable, hDT, hreach⟩
    · exact absurd hx hnl
    · rw [hDT]
      simp [hreach]

/-! ## The walk -/

/-- The part belongs to the first block of the query. -/
def Control.IsFirst (fromBB : BlockId) (ptr : Option Value) : Control S → Prop
  | .enter pointer _ startBB _ | .lookup pointer _ startBB _ =>
    startBB = fromBB ∧ S.phi.getAddr pointer = ptr
  | .iterate f => f.worklist = [fromBB] ∧ S.phi.getAddr f.pointer = ptr
  | .transparent f BB | .failed f BB => BB = fromBB ∧ S.phi.getAddr f.pointer = ptr
  | .preds .. | .ret _ => True

/-- The block is reported, or the search has gone on from it. -/
def Walk.Settled (F : Function S.AA) (w : Walk S) (b : BlockId) (a : Option Value) : Prop :=
  Reported w.result b a ∨ Passes F w.loc w.isLoad b a ∧ Expands S w.visited b a

structure WalkCovers (F : Function S.AA) (w : Walk S) : Prop where
  reports : ∀ r ∈ w.result, Reports F w.loc w.isLoad r
  covered : ∀ b a, w.visited b = some a → w.Waits b a ∨ w.Settled F b a
  passes : ∀ f BB, w.control = .transparent f BB → f.skipFirstBlock = false →
    Passes F w.loc w.isLoad BB (S.phi.getAddr f.pointer)
  first : w.control.skips = true → w.control.IsFirst w.fromBB w.loc.ptr
  expands : w.control.skips = false → (w.control = .ret true ∧ w.stack = []) ∨
    Expands S w.visited w.fromBB w.loc.ptr

theorem Walk.Settled.mono (h : w.Settled F b a) (hq : SameQuery w w')
    (hr : ∀ r ∈ w.result, r ∈ w'.result)
    (hv : ∀ b a, w.visited b = some a → w'.visited b = some a) : w'.Settled F b a := by
  unfold Walk.Settled
  rw [hq.loc, hq.isLoad]
  exact h.imp (fun hx => hx.mono hr) fun ⟨hp, he⟩ => ⟨hp, he.mono hv⟩

/-- Every marked block waits or is settled. -/
abbrev Covered (F : Function S.AA) (w : Walk S) : Prop :=
  ∀ b a, w.visited b = some a → w.Waits b a ∨ w.Settled F b a

/-- The entries of a cached query settle their blocks. -/
theorem settled_useCached (hfits : WalkFits F c w) (hpairs : WalkPairs c w) {pointer : S.phi.Addr}
    {loc : Location} {startBB : BlockId} {skip : Bool}
    (hw : w.control = .lookup pointer loc startBB skip)
    (hpair : (c.info (S.phi.getAddr pointer, w.isLoad)).pair = some (startBB, skip))
    (hsame : ∀ e ∈ c.entries (S.phi.getAddr pointer, w.isLoad), ∀ a,
      w.visited e.BB = some a → a = S.phi.getAddr pointer) :
    (∀ b, w.Continues c (S.phi.getAddr pointer, w.isLoad) b →
      Expands S (w.useCached (S.phi.getAddr pointer)
        (c.entries (S.phi.getAddr pointer, w.isLoad))).visited b (S.phi.getAddr pointer)) ∧
    ∀ b ∈ c.blocks (S.phi.getAddr pointer, w.isLoad),
      (w.useCached (S.phi.getAddr pointer)
        (c.entries (S.phi.getAddr pointer, w.isLoad))).Settled F b (S.phi.getAddr pointer) := by
  have hcontrol := hfits.control
  simp only [hw, ControlFits] at hcontrol
  obtain ⟨hcall, hrec⟩ := hcontrol
  have hok := hpairs.pairs _ _ _ hpair
  have hexpands : ∀ b, w.Continues c (S.phi.getAddr pointer, w.isLoad) b →
      Expands S (w.useCached (S.phi.getAddr pointer)
        (c.entries (S.phi.getAddr pointer, w.isLoad))).visited b (S.phi.getAddr pointer) := by
    intro b hb
    obtain ⟨A, hA, _, hpreds⟩ := hb
    refine ⟨A, hA, fun p hp => ?_⟩
    rcases hpreds p hp with ⟨_, hmark⟩ | ⟨hneeds, hmem⟩
    · exact useCached_mono hmark
    · obtain ⟨e, he, rfl⟩ := List.mem_map.mp hmem
      rw [Setting.predAddr, if_neg (by simp [hneeds]), hA]
      exact useCached_marks hsame he
  refine ⟨hexpands, fun b hb => ?_⟩
  obtain ⟨e, he, rfl⟩ := List.mem_map.mp hb
  have hagrees : Agrees False e.result ((ptrScanner S.AA loc w.isLoad).full F e.BB none) :=
    (hfits.faithful.recorded hrec hcall.ptr he).agrees (hok.clean e he)
  by_cases hopen : Opens S e
  · refine .inr ⟨?_, hexpands _ ?_⟩
    · exact passes_of_agrees hcall.wider hcall.ptr.symm hagrees hopen
    · have hreach := hok.closed e he hopen
      simpa [Walk.Reaches, Walk.At, hw] using hreach
  · obtain ⟨r, hr, hBB, haddr, _⟩ := cachedResult_of_not_opens (S.phi.getAddr pointer) hopen
    exact .inl ⟨r, List.mem_append_right _ (List.mem_filterMap.mpr ⟨e, he, hr⟩), hBB, haddr⟩

/-- A block that a part leaves is settled. -/
theorem WalkCovers.settled_leaves (h : WalkCovers F w) (hfits : WalkFits F c w)
    (hpairs : WalkPairs c w) (hp : Part F c w c' w') (hx : Leaves c c' w w' b a) :
    w'.Settled F b a := by
  cases hx with
  | cached hw hpair hsame hw' hc ha hb =>
    rw [hw', ha]
    exact (settled_useCached hfits hpairs hw hpair hsame).2 b hb
  | @reported r hr hb => exact .inl ⟨_, hr, rfl, rfl⟩
  | @expanded f hw hskip ha hpreds hb =>
    have hpasses := h.passes f b hw hskip
    rw [← hp.sameQuery.loc, ← hp.sameQuery.isLoad, ← ha] at hpasses
    exact .inr ⟨hpasses, f.pointer, ha.symm, hpreds⟩

theorem WalkCovers.covered_part (h : WalkCovers F w) (hfits : WalkFits F c w)
    (hpairs : WalkPairs c w) (hp : Part F c w c' w') : Covered F w' := by
  have hmoves := hpairs.moves_part hfits hp
  intro b a ha
  rcases hmoves.marked b a ha with hold | hx | hx
  · rcases h.covered b a hold with hx | hx
    · exact (hmoves.waits b a hx).imp_right (h.settled_leaves hfits hpairs hp)
    · exact .inr (hx.mono hp.sameQuery (fun _ => hp.result_mono) fun _ _ => hp.visited_mono)
  · exact .inl hx
  · exact .inr (h.settled_leaves hfits hpairs hp hx)

theorem WalkCovers.reports_part (h : WalkCovers F w) (hfits : WalkFits F c w)
    (hpairs : WalkPairs c w) (hp : Part F c w c' w') :
    ∀ r ∈ w'.result, Reports F w'.loc w'.isLoad r := by
  have hcontrol := hfits.control
  cases hp with
  | @cached pointer loc startBB skip hw hpair hsame =>
    simp only [hw, ControlFits] at hcontrol
    obtain ⟨hcall, hrec⟩ := hcontrol
    intro r hr
    rcases List.mem_append.mp hr with hr | hr
    · exact h.reports r hr
    · obtain ⟨e, he, hr⟩ := List.mem_filterMap.mp hr
      have hclosed : ¬ Opens S e := by
        intro hopen
        rw [cachedResult_of_opens hopen] at hr
        cases hr
      obtain ⟨r', hr', hBB, haddr, hcase⟩ := cachedResult_of_not_opens (S.phi.getAddr pointer) hclosed
      rw [hr'] at hr
      cases hr
      have hfaithful := hfits.faithful.recorded hrec hcall.ptr he
      have hagrees := hfaithful.agrees ((hpairs.pairs _ _ _ hpair).clean e he)
      rw [← hBB] at hagrees
      refine reports_of_agrees hcall.wider (hcall.ptr.symm.trans haddr.symm) hagrees ?_ hcase
      rw [hBB]
      exact hclosed
  | @report f BB worklist Dep r c' hw hwork hskip hlook hclosed hr =>
    simp only [hw, ControlFits] at hcontrol
    have hs := hcontrol.scansBlock hfits.faithful hwork hlook
    intro x hx
    rcases List.mem_append.mp hx with hx | hx
    · exact h.reports x hx
    · rw [List.mem_singleton.mp hx]
      exact reports_of_agrees hcontrol.call.wider hcontrol.call.ptr.symm hs.agrees hclosed hr
  | overwrite hw hskip hset => exact reports_concat_unknown h.reports
  | untranslated hw haddr => exact reports_concat_unknown h.reports
  | retFailed hw hstack => exact reports_concat_unknown h.reports
  | _ => exact h.reports

theorem passes_part (hfits : WalkFits F c w) (hp : Part F c w c' w') : ∀ f BB,
    w'.control = .transparent f BB → f.skipFirstBlock = false →
      Passes F w'.loc w'.isLoad BB (S.phi.getAddr f.pointer) := by
  intro f BB hf hskip'
  have hcontrol := hfits.control
  cases hp with
  | skip hw hwork hskip =>
    cases hf
    cases hskip.symm.trans hskip'
  | pass hw hwork hskip hlook hopen =>
    cases hf
    simp only [hw, ControlFits] at hcontrol
    have hs := hcontrol.scansBlock hfits.faithful hwork hlook
    exact passes_of_agrees hcontrol.call.wider hcontrol.call.ptr.symm hs.agrees hopen
  | _ => cases hf

/-- The parts that belong to the first block of the query. -/
theorem WalkCovers.first_part (h : WalkCovers F w) (hp : Part F c w c' w') :
    w'.control.skips = true → w'.control.IsFirst w'.fromBB w'.loc.ptr := by
  have hfirst := h.first
  cases hp with
  | restart hw hr =>
    rw [hw] at hfirst
    exact hfirst
  | agree hw hr =>
    rw [hw] at hfirst
    exact hfirst
  | start hw =>
    rw [hw] at hfirst
    intro hx
    obtain ⟨rfl, hptr⟩ := hfirst hx
    exact ⟨rfl, hptr⟩
  | skip hw hwork hskip =>
    rw [hw] at hfirst
    intro hx
    obtain ⟨hBB, hptr⟩ := hfirst hx
    rw [hwork] at hBB
    exact ⟨(List.cons.inj hBB).1, hptr⟩
  | stick hw hpointer hloc hwork hskip hc hstuck =>
    rw [hw] at hfirst
    intro hx
    rcases hskip with hskip | ⟨hskip, _⟩
    · obtain ⟨hBB, hptr⟩ := hfirst (hskip.symm.trans hx)
      exact ⟨hBB, by rw [hpointer]; exact hptr⟩
    · simp [Control.skips, hskip] at hx
  | report hw hwork hskip hlook hclosed hr => simp [Control.skips, hskip]
  | pass hw hwork hskip hlook hopen => simp [Control.skips, hskip]
  | overwrite hw hskip hset => simp [Control.skips, hskip]
  | _ => simp [Control.skips, Walk.useCached]

/-- After the first block the search has gone on from it, or it is reported at the end. -/
theorem WalkCovers.expands_part (h : WalkCovers F w) (hfits : WalkFits F c w)
    (hpairs : WalkPairs c w) (hp : Part F c w c' w') : w'.control.skips = false →
      (w'.control = .ret true ∧ w'.stack = []) ∨
        Expands S w'.visited w'.fromBB w'.loc.ptr := by
  have hexpands := h.expands
  have hfirst := h.first
  have hexpanded := hp.preds_visited
  have hvisited : ∀ b a, w.visited b = some a → w'.visited b = some a := fun _ _ => hp.visited_mono
  have hnot : w.control.skips = false → w.control ≠ .ret true →
      Expands S w.visited w.fromBB w.loc.ptr := fun hx hret =>
    (hexpands hx).resolve_left fun hx => hret hx.1
  cases hp with
  | restart hw hr => exact fun hx => .inr (hnot (by rw [hw]; exact hx) (by simp [hw]))
  | agree hw hr => exact fun hx => .inr (hnot (by rw [hw]; exact hx) (by simp [hw]))
  | @conflict pointer loc startBB skip hw hpair hother =>
    intro _
    cases hskip : skip with
    | true => exact .inl ⟨rfl, (hpairs.first (by rw [hw]; exact hskip)).1⟩
    | false => exact .inr (hnot (by rw [hw]; exact hskip) (by simp [hw]))
  | @cached pointer loc startBB skip hw hpair hsame =>
    intro _
    refine .inr ?_
    cases hskip : skip with
    | true =>
      rw [hw] at hfirst
      obtain ⟨hBB, hptr⟩ := hfirst hskip
      have hstart := (hpairs.pairs _ _ _ hpair).start
      simp only [Walk.Starts, hw, hskip, if_true, false_or, Walk.Reaches, Walk.At] at hstart
      show Expands S _ w.fromBB w.loc.ptr
      rw [← hptr, ← hBB]
      exact (settled_useCached hfits hpairs hw hpair hsame).1 startBB hstart
    | false =>
      exact (hnot (by rw [hw]; exact hskip) (by simp [hw])).mono hvisited
  | start hw => exact fun hx => .inr (hnot (by rw [hw]; exact hx) (by simp [hw]))
  | @finish f hw hwork =>
    intro _
    cases hskip : f.skipFirstBlock with
    | true =>
      rw [hw] at hfirst
      obtain ⟨hBB, _⟩ := hfirst hskip
      rw [hwork] at hBB
      cases hBB
    | false => exact .inr (hnot (by rw [hw]; exact hskip) (by simp [hw]))
  | skip hw hwork hskip => exact fun hx => .inr (hnot (by rw [hw]; exact hx) (by simp [hw]))
  | report hw hwork hskip hlook hclosed hr =>
    exact fun hx => .inr (hnot (by rw [hw]; exact hskip) (by simp [hw]))
  | pass hw hwork hskip hlook hopen =>
    exact fun hx => .inr (hnot (by rw [hw]; exact hskip) (by simp [hw]))
  | @spread f BB visited NewBlocks hw hneeds hvisit
  | @translate f BB visited NewBlocks hw hneeds hvisit =>
    intro _
    refine .inr ?_
    cases hskip : f.skipFirstBlock with
    | true =>
      rw [hw] at hfirst
      obtain ⟨rfl, hptr⟩ := hfirst hskip
      exact ⟨f.pointer, hptr, (hexpanded f _ hw).resolve_left (by simp)⟩
    | false => exact (hnot (by rw [hw]; exact hskip) (by simp [hw])).mono hvisited
  | @stick f f' BB c' hw hpointer hloc hwork hskip hc hstuck =>
    intro hx
    refine .inr (hnot ?_ (by simp [hw]))
    rw [hw]
    rcases hskip with hskip | ⟨_, b, hb⟩
    · exact hskip.symm.trans hx
    · -- nothing is visited while the first block is skipped
      rw [Bool.eq_false_iff]
      intro hskip
      rw [(hpairs.first (by rw [hw]; exact hskip)).2 b] at hb
      cases hb
  | giveUp hw hskip => exact fun _ => .inl ⟨rfl, (hpairs.first (by rw [hw]; exact hskip)).1⟩
  | overwrite hw hskip hset =>
    exact fun hx => .inr (hnot (by rw [hw]; exact hskip) (by simp [hw]))
  | resume hw => exact fun hx => .inr (hnot (by rw [hw]; rfl) (by simp [hw]))
  | untranslated hw haddr => exact fun hx => .inr (hnot (by rw [hw]; rfl) (by simp [hw]))
  | call hw haddr => exact fun hx => .inr (hnot (by rw [hw]; rfl) (by simp [hw]))
  | retFailed hw hstack =>
    refine fun _ => .inr ((hexpands (by rw [hw]; rfl)).resolve_left fun hx => ?_)
    rw [hstack] at hx
    cases hx.2
  | ret hw hstack => exact fun _ => .inr (hnot (by rw [hw]; rfl) (by simp [hw]))

/-- A sound part of a walk keeps every marked block waiting or settled. -/
theorem WalkCovers.part (h : WalkCovers F w) (hfits : WalkFits F c w) (hpairs : WalkPairs c w)
    (hp : Part F c w c' w') : WalkCovers F w' where
  reports := h.reports_part hfits hpairs hp
  covered := h.covered_part hfits hpairs hp
  passes := passes_part hfits hp
  first := h.first_part hp
  expands := h.expands_part hfits hpairs hp

/-- When the first activation returns, nothing waits, and the result covers the query. -/
theorem WalkCovers.over (h : WalkCovers F w) {failed : Bool} (hw : w.control = .ret failed)
    (hstack : w.stack = []) :
    Covers F w.loc w.isLoad w.fromBB w.visited
      (if failed then w.result ++ [⟨w.fromBB, .other .unknown, w.loc.ptr⟩] else w.result) := by
  have hresult : ∀ r ∈ w.result, r ∈
      if failed then w.result ++ [⟨w.fromBB, .other .unknown, w.loc.ptr⟩] else w.result := by
    intro r hr
    split
    · exact List.mem_append_left _ hr
    · exact hr
  refine ⟨?_, ?_, fun b a hv => ?_⟩
  · split
    · exact reports_concat_unknown h.reports
    · exact h.reports
  · cases failed with
    | true => exact .inl .concat
    | false =>
      refine .inr ((h.expands (by rw [hw]; rfl)).resolve_left fun hx => ?_)
      rw [hw] at hx
      cases hx.1
  · rcases h.covered b a hv with hx | hx
    · rcases hx with hx | ⟨_, s, hs, _⟩ | ⟨s, hs, _⟩
      · rw [hw] at hx
        exact hx.elim
      · simp [hstack] at hs
      · simp [hstack] at hs
    · exact hx.imp_left fun hx => hx.mono hresult

end Walk

end FlowDep
end DepTaint
