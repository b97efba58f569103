import DepTaint.WalkRuns

/-!
# UntranslatedWalks

Queries for a pointer that is the same value in every block, such as a global or an argument.

Such a walk has one activation. No two blocks disagree about the address, so the walk never fails, and
the only data it may throw out is that of its own pointer, before it has used any.

* `untranslated_queries_end`: the query ends, and its answer is for the pointer itself.
-/

namespace DepTaint
namespace FlowDep

open Relation

section Walk

variable {S : Setting} {F : Function S.AA} {c c' : Caches} {w w' : Walk S} {A : S.phi.Addr}
  {P : ValueIsLoadPair} {loc : Location}

/-- The pointer is translated in no block. -/
def Untranslated (S : Setting) (A : S.phi.Addr) : Prop :=
  ∀ b, S.phi.needsPHITranslationFromBlock A b = false

/-- A query for `loc` can use the data of `P`, or can throw it out. -/
def Reusable (c : Caches) (P : ValueIsLoadPair) (loc : Location) : Prop :=
  loc.Wider ((c.info P).location P) ∨ NoMarker c P

theorem noMarker_of_none (h : c.nonLocalPointerDeps P = none) : NoMarker c P := by
  simp [NoMarker, Caches.entries_of_none h]

/-- A record that is as wide as the query stays what it is. -/
theorem reconcile_of_wider {info : NonLocalPointerInfo} (hinfo : c.nonLocalPointerDeps P = some info)
    (hwide : loc.Wider (info.location P)) {restart : Option Location}
    (hr : reconcile c P loc = .ok (c', restart)) :
    c' = c ∧ ∀ loc', restart = some loc' → loc'.Wider (info.location P) := by
  have hget := Caches.info_of_some hinfo
  have hsize : loc.size ≤ info.size := hwide.size
  have htag : info.tbaaTag = loc.tbaaTag ∨ info.tbaaTag = none := hwide.tbaaTag
  unfold reconcile at hr
  rw [hinfo] at hr
  dsimp only at hr
  rw [if_neg (by omega)] at hr
  split at hr
  next =>
    cases hr
    refine ⟨rfl, fun loc' hloc' => ?_⟩
    cases hloc'
    exact ⟨Nat.le_refl _, hwide.tbaaTag⟩
  next =>
    unfold reconcileTBAATag at hr
    rw [hget] at hr
    dsimp only at hr
    split at hr
    next hne =>
      -- the tags differ, so the record has none
      have hnone : info.tbaaTag = none := htag.resolve_left hne
      rw [hnone] at hr
      cases hr
      refine ⟨rfl, fun loc' hloc' => ?_⟩
      split at hloc'
      · cases hloc'
        exact ⟨hsize, .inr hnone⟩
      · cases hloc'
    next =>
      cases hr
      exact ⟨rfl, nofun⟩

theorem Reusable.reconcile (h : Reusable c P loc) {loc' : Location}
    (hr : FlowDep.reconcile c P loc = .ok (c', some loc')) : Reusable c' P loc' := by
  have hmarker : NoMarker c P → Reusable c' P loc' := by
    intro hno
    refine .inr fun e he => ?_
    rcases (reconcile_reconciles hr).fewer P with hnil | hfewer
    · rw [hnil] at he
      cases he
    · exact hno e (hfewer.entries e he)
  rcases h with hwide | hno
  · cases hinfo : c.nonLocalPointerDeps P with
    | none => exact hmarker (noMarker_of_none hinfo)
    | some info =>
      rw [Caches.info_of_some hinfo] at hwide
      obtain ⟨rfl, hloc'⟩ := reconcile_of_wider hinfo hwide hr
      refine .inl ?_
      rw [Caches.info_of_some hinfo]
      exact hloc' loc' rfl
  · exact hmarker hno

theorem Reusable.noMarker (h : Reusable c P loc) (hclear : (c.info P).ClearedBy loc) :
    NoMarker c P := by
  rcases h with hwide | hno
  · exfalso
    have hsize : loc.size ≤ (c.info P).size := hwide.size
    have htag : (c.info P).tbaaTag = loc.tbaaTag ∨ (c.info P).tbaaTag = none := hwide.tbaaTag
    rcases hclear with hlt | ⟨_, hne, hsome⟩
    · omega
    · rcases htag with htag | htag
      · exact hne htag
      · rw [htag] at hsome
        cases hsome
  · exact hno

/-! ## One activation -/

/-- The part belongs to the only activation, which is for `A`. -/
def Control.Single (A : S.phi.Addr) (c : Caches) (isLoad : Bool) : Control S → Prop
  | .enter pointer loc _ skip =>
    pointer = A ∧ skip = true ∧ Reusable c (S.phi.getAddr A, isLoad) loc
  | .lookup pointer _ _ skip => pointer = A ∧ skip = true
  | .iterate f | .transparent f _ => f.pointer = A
  | .failed .. | .preds .. => False
  | .ret fails => fails = false

structure Walk.Single (A : S.phi.Addr) (c : Caches) (w : Walk S) : Prop where
  control : w.control.Single A c w.isLoad
  stack : w.stack = []
  visited : ∀ b, w.visited b = none ∨ w.visited b = some (S.phi.getAddr A)
  result : ∀ r ∈ w.result, r.address = S.phi.getAddr A

theorem address_concat {result : List NonLocalDepResult} {a : Option Value} {b : BlockId}
    {r : FlowDepResult} (h : ∀ r ∈ result, r.address = a) :
    ∀ x ∈ result ++ [⟨b, r, a⟩], x.address = a := by
  intro x hx
  rcases List.mem_append.mp hx with hx | hx
  · exact h x hx
  · rw [List.mem_singleton.mp hx]

theorem Walk.Single.part (h : w.Single A c) (hA : Untranslated S A) (hpairs : WalkPairs c w)
    (hp : Part F c w c' w') : w'.Single A c' := by
  have hcontrol := h.control
  cases hp with
  | restart hw hr =>
    rw [hw] at hcontrol
    obtain ⟨rfl, hskip, hreuse⟩ := hcontrol
    exact ⟨⟨rfl, hskip, hreuse.reconcile hr⟩, h.stack, h.visited, h.result⟩
  | agree hw hr =>
    rw [hw] at hcontrol
    exact ⟨⟨hcontrol.1, hcontrol.2.1⟩, h.stack, h.visited, h.result⟩
  | conflict hw hpair hother =>
    rw [hw] at hcontrol
    obtain ⟨b, hb⟩ := hother
    rw [(hpairs.first (by rw [hw]; exact hcontrol.2)).2 b] at hb
    cases hb
  | cached hw hpair hsame =>
    rw [hw] at hcontrol
    obtain ⟨rfl, _⟩ := hcontrol
    refine ⟨rfl, h.stack, fun b => ?_, fun r hr => ?_⟩
    · cases hv : (w.useCached _ _).visited b with
      | none => exact .inl rfl
      | some a =>
        right
        rcases useCached_visited hv with hold | ⟨rfl, _⟩
        · rcases h.visited b with hnone | hsome
          · rw [hnone] at hold
            cases hold
          · rw [← hold, hsome]
        · rfl
    · rcases List.mem_append.mp hr with hr | hr
      · exact h.result r hr
      · obtain ⟨e, _, hr⟩ := List.mem_filterMap.mp hr
        by_cases hopen : Opens S e
        · rw [cachedResult_of_opens hopen] at hr
          cases hr
        · obtain ⟨r', hr', _, haddr, _⟩ := cachedResult_of_not_opens _ hopen
          rw [hr'] at hr
          cases hr
          exact haddr
  | start hw =>
    rw [hw] at hcontrol
    exact ⟨hcontrol.1, h.stack, h.visited, h.result⟩
  | finish hw hwork => exact ⟨rfl, h.stack, h.visited, h.result⟩
  | skip hw hwork hskip =>
    rw [hw] at hcontrol
    exact ⟨hcontrol, h.stack, h.visited, h.result⟩
  | @report f BB worklist Dep r c' hw hwork hskip hlook hclosed hr =>
    rw [hw] at hcontrol
    have hpointer : f.pointer = A := hcontrol
    refine ⟨hcontrol, h.stack, h.visited, ?_⟩
    rw [hpointer]
    exact address_concat h.result
  | pass hw hwork hskip hlook hopen =>
    rw [hw] at hcontrol
    exact ⟨hcontrol, h.stack, h.visited, h.result⟩
  | @spread f BB visited NewBlocks hw hneeds hvisit =>
    rw [hw] at hcontrol
    have hpointer : f.pointer = A := hcontrol
    obtain ⟨new, _, hm⟩ := visitPreds_marks hvisit
    refine ⟨hcontrol, h.stack, fun b => ?_, h.result⟩
    cases hv : visited b with
    | none => exact .inl hv
    | some a =>
      right
      rcases hm.marked b a hv with hold | ⟨_, rfl⟩
      · rcases h.visited b with hnone | hsome
        · rw [hnone] at hold
          cases hold
        · show visited b = _
          rw [hv, ← hold, hsome]
      · show visited b = _
        rw [hv, hpointer]
  | @translate f BB visited NewBlocks hw hneeds hvisit =>
    rw [hw] at hcontrol
    have hpointer : f.pointer = A := hcontrol
    rw [hpointer, hA BB] at hneeds
    cases hneeds
  | @stick f f' BB c' hw hpointer hloc hwork hskip hc hstuck =>
    rw [hw] at hcontrol
    have hpointer : f.pointer = A := hcontrol
    rw [hpointer, hA BB] at hstuck
    rcases hstuck with hneeds | hnone
    · cases hneeds
    · have hsome : (visitPreds (fun _ => S.phi.getAddr A) (S.getPreds BB) w.visited []).isSome :=
        visitPreds_isSome h.visited
      rw [hnone] at hsome
      cases hsome
  | giveUp hw hskip =>
    rw [hw] at hcontrol
    exact hcontrol.elim
  | overwrite hw hskip hset =>
    rw [hw] at hcontrol
    exact hcontrol.elim
  | resume hw =>
    rw [hw] at hcontrol
    exact hcontrol.elim
  | untranslated hw haddr =>
    rw [hw] at hcontrol
    exact hcontrol.elim
  | call hw haddr =>
    rw [hw] at hcontrol
    exact hcontrol.elim
  | retFailed hw hstack =>
    rw [h.stack] at hstack
    cases hstack
  | ret hw hstack =>
    rw [h.stack] at hstack
    cases hstack

/-- The only activation throws out nothing that is in use, and overwrites nothing. -/
theorem Walk.Single.sound (h : w.Single A c) (hpairs : WalkPairs c w) :
    w.Sound c ∧ w.Careful c := by
  have hcontrol := h.control
  cases hw : w.control with
  | enter pointer loc startBB skip =>
    rw [hw] at hcontrol
    obtain ⟨rfl, hskip, hreuse⟩ := hcontrol
    have hnone := (hpairs.first (by rw [hw]; exact hskip)).2
    simp only [Walk.Sound, Walk.Careful, hw]
    refine ⟨fun _ => ⟨fun b hb => ?_, fun s hs => ?_⟩, hreuse.noMarker⟩
    · rw [hnone b] at hb
      cases hb
    · rw [h.stack] at hs
      cases hs
  | failed f BB =>
    rw [hw] at hcontrol
    exact hcontrol.elim
  | _ => simp only [Walk.Sound, Walk.Careful, hw, and_self]

end Walk

/-! ## Queries -/

section Query

variable {S : FiniteSetting} {F : Function S.AA} {s s' : State S.toSetting} {A : S.phi.Addr}
  {n : Nat}

/-- A walk with one activation, or the results it has left. -/
def State.Single (A : S.phi.Addr) (s : State S.toSetting) : Prop :=
  match s.walk with
  | some w => w.Single A s.caches
  | none => ∀ r ∈ s.result, r.address = S.phi.getAddr A

theorem State.Walks.single (h : State.Walks n s s') (hA : Untranslated S.toSetting A)
    (hinv : PointerInv s) (hs : s.Single A) : PointerInv s' ∧ s'.Single A := by
  induction h with
  | refl => exact ⟨hinv, hs⟩
  | @head n s t _ ha hsound hstep _ ih =>
    refine ih (hinv.step_advance ha hsound hstep) ?_
    obtain ⟨w, hw⟩ := Option.ne_none_iff_exists'.mp ha
    simp only [State.Single, hw] at hs
    simp only [State.step, hw] at hstep
    obtain ⟨⟨c, r⟩, hr, hstep⟩ := bind_eq_ok.mp hstep
    cases r with
    | inl w' =>
      cases hstep
      exact hs.part hA (hinv.walk w hw).2.1 (advance_part hr)
    | inr result =>
      cases hstep
      obtain ⟨_, _, failed, hret, rfl⟩ := advance_over hr
      have hcontrol := hs.control
      rw [hret] at hcontrol
      have hfailed : failed = false := hcontrol
      simp only [State.Single, hfailed]
      exact hs.result

/-- In every state a query for a pointer that is translated nowhere ends, when the data cached for it
is for as large a location or can be thrown out. Its answer misses nothing, and is for the pointer. -/
theorem untranslated_queries_end {s : ClientState S} {s0 : State S.toSetting} {Loc : Location}
    {isLoad : Bool} {FromBB : BlockId}
    (h : ReflTransGen ClientState.SoundStep (.initial F) s)
    (hq : s.base.Enabled (.getNonLocalPointerDependency Loc isLoad FromBB))
    (hstart : s.base.step (.getNonLocalPointerDependency Loc isLoad FromBB) = .ok s0)
    (hA : Untranslated S.toSetting (S.phi.ofPtr Loc.ptr))
    (hreuse : Reusable s.base.caches (Loc.ptr, isLoad) Loc) :
    ∃ n s1, n ≤ 11 * S.blocks.card + 10 ∧ State.Walks n s0 s1 ∧ s1.walk = none ∧
      Answered s.base.F Loc isLoad FromBB s1.result ∧ ∀ r ∈ s1.result, r.address = Loc.ptr := by
  have hinv := (pointerInv_of_run h).step hq nofun trivial hstart
  cases hstart
  have hptr := S.phi.getAddr_ofPtr Loc.ptr
  obtain ⟨n, s1, hn, hwalks, hend⟩ := hinv.walks rfl (left_begin_le s.base.caches)
  obtain ⟨hinv1, hsingle⟩ := hwalks.single hA hinv
    ⟨⟨rfl, rfl, by rw [hptr]; exact hreuse⟩, rfl, fun _ => .inl rfl, nofun⟩
  have hover : s1.walk = none := by
    cases hw : s1.walk with
    | none => rfl
    | some w =>
      simp only [State.Single, hw] at hsingle
      obtain ⟨hsound, hcareful⟩ := hsingle.sound (hinv1.walk w hw).2.1
      refine (hend.resolve_left (by simp [hw]) ⟨fun w' hw' => ?_, fun w' hw' => ?_⟩).elim
      · exact Option.some.inj (hw.symm.trans hw') ▸ hsound
      · exact Option.some.inj (hw.symm.trans hw') ▸ hcareful
  have hqueried := (hwalks.queried hinv ⟨rfl, rfl, rfl, rfl⟩).2
  rw [hover] at hqueried
  simp only [State.Single, hover, hptr] at hsingle
  exact ⟨n, s1, hn, hwalks, hover, hqueried, hsingle⟩

/-- The query for the global 0, before anything is cached. -/
theorem untranslated_queries_end_first :
    ∃ s0, LoopedBlocks.start.base.step
        (.getNonLocalPointerDependency (LoopedBlocks.Loc 0) true 1) = .ok s0 ∧
      ∃ n s1, n ≤ 32 ∧ State.Walks n s0 s1 ∧ s1.walk = none ∧
        Answered LoopedBlocks.F (LoopedBlocks.Loc 0) true 1 s1.result ∧
        ∀ r ∈ s1.result, r.address = some (.global 0) :=
  ⟨_, rfl, untranslated_queries_end .refl (LoopedBlocks.enabled rfl) rfl (fun _ => rfl)
    (.inr (noMarker_of_none rfl))⟩

end Query

end FlowDep
end DepTaint
