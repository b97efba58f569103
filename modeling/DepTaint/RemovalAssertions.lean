import DepTaint.WalkRuns

/-!
# RemovalAssertions

When the removal of an instruction runs into an assertion.

The entries of the removed call and of the removed pointer are taken out of the reverse maps, which
do not hold the constants that stand for no instruction in the same way: the entries of a call are
recorded once for each of its constants, those of a pointer not at all. After that nothing is left
to run into: no call and no pointer that depends on the instruction is the instruction itself. For
the pointers this needs that only pointers have entries, so that those of the instruction are gone.

* `PointersOnly.step`: only pointers have entries, if the translation of a pointer is a pointer.
* `removeFromAll_iff`: a removal goes through exactly if these entries can be taken out.
-/

namespace DepTaint
namespace FlowDep

open Relation

/-! ## Only pointers have entries -/

/-- The address is unknown, or of pointer type. -/
def Points (AA : AliasAnalysis) (addr : Option Value) : Prop :=
  ∀ v, addr = some v → AA.isPointerTy v = true

/-- The translation of a pointer is a pointer. -/
def PHITransAddr.KeepsPointers (phi : PHITransAddr) (AA : AliasAnalysis) : Prop :=
  ∀ A BB Pred, Points AA (phi.getAddr A) → Points AA (phi.getAddr (phi.pHITranslateValue A BB Pred))

section Keys

variable {S : FiniteSetting} {F F' : Function S.AA} {c c' : Caches} {w w' : Walk S.toSetting}
  {P : ValueIsLoadPair}

def KeysPoint (AA : AliasAnalysis) (c : Caches) : Prop := ∀ P, c.entries P ≠ [] → Points AA P.1

/-- The addresses an activation goes on with. -/
def FramePoints (f : Frame S.toSetting) (predList : List (BlockId × S.phi.Addr)) : Prop :=
  Points S.AA (S.phi.getAddr f.pointer) ∧ ∀ p ∈ predList, Points S.AA (S.phi.getAddr p.2)

def ControlPoints : Control S.toSetting → Prop
  | .enter pointer _ _ _ | .lookup pointer _ _ _ => Points S.AA (S.phi.getAddr pointer)
  | .iterate f | .transparent f _ | .failed f _ => FramePoints f []
  | .preds f predList => FramePoints f predList
  | .ret _ => True

structure WalkPoints (w : Walk S.toSetting) : Prop where
  control : ControlPoints w.control
  stack : ∀ s ∈ w.stack, FramePoints s.frame s.predList

theorem entries_congr (h : c'.nonLocalPointerDeps P = c.nonLocalPointerDeps P) :
    c'.entries P = c.entries P := by
  simp only [Caches.entries, Caches.info, h]

/-- Only the entries of one pointer change. -/
theorem KeysPoint.frame {AA : AliasAnalysis} (h : KeysPoint AA c) (hP : Points AA P.1)
    (hframe : ∀ P', P' ≠ P → c'.entries P' = c.entries P') : KeysPoint AA c' := by
  intro P' hP'
  by_cases hPP : P' = P
  · rw [hPP]
    exact hP
  · exact h P' (by rwa [hframe P' hPP] at hP')

theorem getNonLocalInfoForBlock_frame {Loc : Location} {isLoad : Bool} {BB : BlockId} {n : Nat}
    {r : FlowDepResult × Caches} (h : getNonLocalInfoForBlock F c P Loc isLoad BB n = .ok r)
    {P' : ValueIsLoadPair} (hP' : P' ≠ P) : r.2.entries P' = c.entries P' := by
  unfold getNonLocalInfoForBlock at h
  dsimp only at h
  split at h
  · cases h
    exact entries_scanForBlock hP'
  · split at h
    · cases h
      exact entries_scanForBlock hP'
    · split at h
      · cases h
      · obtain ⟨m, _, h⟩ := bind_eq_ok.mp h
        cases h
        exact entries_scanForBlock hP'
    · cases h
      rfl

/-- A part of a walk goes on with pointers, and adds entries of its own pointer. -/
theorem WalkPoints.part (hphi : S.phi.KeepsPointers S.AA) (hc : KeysPoint S.AA c) (h : WalkPoints w)
    (hp : Part F c w c' w') : KeysPoint S.AA c' ∧ WalkPoints w' := by
  obtain ⟨hcontrol, hstack⟩ := h
  -- a part that sets the entries of its own pointer
  have hkey : ∀ {c' : Caches} (pointer : S.phi.Addr), Points S.AA (S.phi.getAddr pointer) →
      (∀ P', P' ≠ (S.phi.getAddr pointer, w.isLoad) → c'.entries P' = c.entries P') →
      KeysPoint S.AA c' := fun pointer hP hframe => hc.frame hP hframe
  have hset : ∀ {f : Frame S.toSetting} {l : List (BlockId × S.phi.Addr)}
      {info : NonLocalPointerInfo}, FramePoints f l → KeysPoint S.AA (c.setInfo (f.key w.isLoad) info) :=
    fun hf => hkey _ hf.1 fun P' hP' => Caches.entries_setInfo_of_ne hP'
  cases hp with
  | restart hw hr =>
    rw [hw] at hcontrol
    exact ⟨hkey _ hcontrol fun P' hP' => entries_congr ((reconcile_reconciles hr).frame P' hP'),
      hcontrol, hstack⟩
  | agree hw hr =>
    rw [hw] at hcontrol
    exact ⟨hkey _ hcontrol fun P' hP' => entries_congr ((reconcile_reconciles hr).frame P' hP'),
      hcontrol, hstack⟩
  | conflict hw hpair hother => exact ⟨hc, trivial, hstack⟩
  | cached hw hpair hsame => exact ⟨hc, trivial, hstack⟩
  | start hw =>
    rw [hw] at hcontrol
    exact ⟨hkey _ hcontrol fun P' hP' => Caches.entries_setInfo_of_ne hP', ⟨hcontrol, by simp⟩,
      hstack⟩
  | finish hw hwork =>
    rw [hw] at hcontrol
    exact ⟨hset hcontrol, trivial, hstack⟩
  | skip hw hwork hskip =>
    rw [hw] at hcontrol
    exact ⟨hc, hcontrol, hstack⟩
  | report hw hwork hskip hlook hclosed hr =>
    rw [hw] at hcontrol
    exact ⟨hkey _ hcontrol.1 fun P' hP' => getNonLocalInfoForBlock_frame hlook hP', hcontrol,
      hstack⟩
  | pass hw hwork hskip hlook hopen =>
    rw [hw] at hcontrol
    exact ⟨hkey _ hcontrol.1 fun P' hP' => getNonLocalInfoForBlock_frame hlook hP', hcontrol,
      hstack⟩
  | spread hw hneeds hvisit =>
    rw [hw] at hcontrol
    exact ⟨hc, hcontrol, hstack⟩
  | translate hw hneeds hvisit =>
    rw [hw] at hcontrol
    refine ⟨hset hcontrol, ⟨hcontrol.1, fun p hp => ?_⟩, hstack⟩
    obtain ⟨Pred, _, rfl⟩ := List.mem_map.mp hp
    exact hphi _ _ Pred hcontrol.1
  | stick hw hpointer hloc hwork hskip hsort hstuck =>
    rw [hw] at hcontrol
    refine ⟨?_, ⟨?_, by simp⟩, hstack⟩
    · rcases hsort with rfl | rfl
      · exact hc
      · exact hset hcontrol
    · rw [hpointer]
      exact hcontrol.1
  | giveUp hw hskip =>
    rw [hw] at hcontrol
    exact ⟨hset hcontrol, trivial, hstack⟩
  | overwrite hw hskip hes =>
    rw [hw] at hcontrol
    refine ⟨hkey _ hcontrol.1 fun P' hP' => ?_, hcontrol, hstack⟩
    exact (Caches.entries_setEntries_of_ne hP').trans Caches.entries_setPair
  | resume hw =>
    rw [hw] at hcontrol
    exact ⟨hset hcontrol, hcontrol, hstack⟩
  | untranslated hw haddr =>
    rw [hw] at hcontrol
    exact ⟨hset hcontrol, ⟨hcontrol.1, fun p hp => hcontrol.2 p (List.mem_cons_of_mem _ hp)⟩,
      hstack⟩
  | call hw haddr =>
    rw [hw] at hcontrol
    refine ⟨hc, hcontrol.2 _ (List.mem_cons_self ..), fun s hs => ?_⟩
    rcases List.mem_cons.mp hs with rfl | hs
    · exact ⟨hcontrol.1, fun p hp => hcontrol.2 p (List.mem_cons_of_mem _ hp)⟩
    · exact hstack s hs
  | retFailed hw hrest =>
    rw [hrest] at hstack
    exact ⟨hset (hstack _ (List.mem_cons_self ..)), hstack _ (List.mem_cons_self ..),
      fun s hs => hstack s (List.mem_cons_of_mem _ hs)⟩
  | ret hw hrest =>
    rw [hrest] at hstack
    exact ⟨hc, hstack _ (List.mem_cons_self ..), fun s hs => hstack s (List.mem_cons_of_mem _ hs)⟩

/-- A removal adds no entry where there was none. -/
theorem dirtyPtrDeps_entries {R : InstId} (h : (dirtyPtrDeps F c R).entries P ≠ []) :
    c.entries P ≠ [] := by
  unfold dirtyPtrDeps at h
  split at h
  · exact h
  · rename_i Set _
    have hlength : ((Set.foldl (dirtyPtrDep F R) (c, [])).1.entries P).length =
        (c.entries P).length := by
      refine foldl_invariant (P := fun _ (t : Caches × List (InstPtr × ValueIsLoadPair)) =>
        (t.1.entries P).length = (c.entries P).length) rfl fun done Q post t _ ht => ?_
      by_cases hQ : P = Q
      · subst hQ
        simp [dirtyPtrDep, ht]
      · rw [← ht, dirtyPtrDep, Caches.entries_setEntries_of_ne hQ, Caches.entries_setPair]
    intro hnil
    rw [hnil, List.length_nil, List.length_eq_zero_iff] at hlength
    exact h hlength

/-- Only pointers have entries, and the walk that is on goes after pointers. -/
structure PointersOnly (s : State S.toSetting) : Prop where
  caches : KeysPoint S.AA s.caches
  walk : ∀ w, s.walk = some w → WalkPoints w

theorem pointersOnly_initial (F : Function S.AA) : PointersOnly (.initial F : State S.toSetting) :=
  ⟨fun P hP => absurd rfl hP, fun w hw => by cases hw⟩

theorem PointersOnly.step (hphi : S.phi.KeepsPointers S.AA) {s s' : State S.toSetting}
    (h : PointersOnly s) {a : Action S.toSetting} (ha : s.Enabled a) (hs : s.step a = .ok s') :
    PointersOnly s' := by
  cases a with
  | getDependency Q =>
    obtain ⟨⟨r, c⟩, hc, hs⟩ := bind_eq_ok.mp hs
    cases hs
    have hsame : c.pointers = s.caches.pointers := getDependency_pointers hc
    refine ⟨fun P hP => h.caches P ?_, h.walk⟩
    show s.caches.pointers.entries P ≠ []
    rw [← hsame]
    exact hP
  | getNonLocalPointerDependency Loc isLoad FromBB =>
    cases hs
    obtain ⟨_, p, hptr, hp⟩ := ha
    refine ⟨h.caches, fun w hw => ?_⟩
    cases hw
    refine ⟨fun v hv => ?_, by simp⟩
    rw [S.phi.getAddr_ofPtr, hptr] at hv
    cases hv
    exact hp
  | invalidateCachedPointerInfo Ptr =>
    obtain ⟨c, hc, hs⟩ := bind_eq_ok.mp hs
    cases hs
    refine ⟨fun P hP => h.caches P ?_, h.walk⟩
    rcases invalidate_fewer hc P with hnone | hsame
    · exact absurd (Caches.entries_of_none hnone) hP
    · rwa [← entries_congr hsame]
  | removeInstruction R F' =>
    obtain ⟨c, hc, hs⟩ := bind_eq_ok.mp hs
    cases hs
    obtain ⟨c1, h1, hc⟩ := bind_eq_ok.mp hc
    obtain ⟨c2, h2, hc⟩ := bind_eq_ok.mp hc
    obtain ⟨c3, h3, hc⟩ := bind_eq_ok.mp hc
    cases hc
    refine ⟨fun P hP => h.caches P ?_, h.walk⟩
    have hP3 : c3.entries P ≠ [] := dirtyPtrDeps_entries hP
    have hP2 : c2.pointers.entries P ≠ [] := by
      rw [← dirtyLocalDeps_pointers h3]
      exact hP3
    have hP1 : c1.pointers.entries P ≠ [] := by
      rcases invalidate_fewer h2 P with hnone | hsame
      · exact absurd (Caches.entries_of_none hnone) hP2
      · exact fun hx => hP2 ((entries_congr hsame).trans hx)
    rwa [removeLocalDep_pointers h1] at hP1
  | advance =>
    obtain ⟨w, hw⟩ := Option.ne_none_iff_exists'.mp ha
    simp only [State.step, hw] at hs
    obtain ⟨⟨c, r⟩, hr, hs⟩ := bind_eq_ok.mp hs
    cases r with
    | inl w' =>
      cases hs
      obtain ⟨hc, hw'⟩ := (h.walk w hw).part hphi h.caches (advance_part hr)
      refine ⟨hc, fun w'' hx => ?_⟩
      cases hx
      exact hw'
    | inr result =>
      cases hs
      obtain ⟨rfl, _⟩ := advance_over hr
      exact ⟨h.caches, fun w'' hx => by cases hx⟩

end Keys

/-! ## Runs in which the assertions of walks hold -/

section Runs

variable {S : FiniteSetting} {F : Function S.AA} {s s' : ClientState S} {R : InstId}

def State.Asserted {S : Setting} (s : State S) : Action S → Prop
  | .advance => ∀ w, s.walk = some w → w.Asserted s.caches
  | _ => True

def ClientState.Asserted (s : ClientState S) : ClientAction S → Prop
  | .base a => s.base.Asserted a
  | _ => True

def ClientState.AssertedStep (s s' : ClientState S) : Prop :=
  ∃ a, s.Enabled a ∧ s.Asserted a ∧ s.step a = .ok s'

theorem ClientState.AssertedStep.step (h : ClientState.AssertedStep s s') : ClientState.Step s s' :=
  h.imp fun _ ha => ⟨ha.1, ha.2.2⟩

/-- The pointers see a step of the client as one of their own, or not at all. -/
theorem ClientState.AssertedStep.base (h : ClientState.AssertedStep s s') :
    s'.base = s.base ∨ ∃ a, s.base.Enabled a ∧ s.base.Asserted a ∧ s.base.step a = .ok s'.base := by
  obtain ⟨a, ha, hasserted, hs⟩ := h
  cases a with
  | base a =>
    obtain ⟨b, hb, hs⟩ := bind_eq_ok.mp hs
    cases hs
    exact .inr ⟨a, ha.1, hasserted, hb⟩
  | getNonLocalCallDependency Q =>
    obtain ⟨⟨es, c, calls⟩, hc, hs⟩ := bind_eq_ok.mp hs
    cases hs
    obtain ⟨⟨r, hr⟩, _⟩ := of_getNonLocalCallDependency_ok hc
    exact .inr ⟨.getDependency Q, ha, trivial, bind_eq_ok.mpr ⟨_, hr, rfl⟩⟩
  | answerCall Q =>
    obtain ⟨⟨es, calls⟩, _, hs⟩ := bind_eq_ok.mp hs
    cases hs
    exact .inl rfl
  | removeInstruction R F' =>
    obtain ⟨⟨c, calls⟩, hc, hs⟩ := bind_eq_ok.mp hs
    cases hs
    obtain ⟨hwalk, hR, hF⟩ := ha
    exact .inr ⟨.removeInstruction R F', ⟨hwalk, hR, hF.keeps⟩, trivial,
      bind_eq_ok.mpr ⟨c, (of_removeFromAll_ok hc).1, rfl⟩⟩

/-- The run lemma: the entries of the pointers agree with their reverse map, and only pointers have
entries. -/
theorem pointersOnly_of_run (hphi : S.phi.KeepsPointers S.AA)
    (h : ReflTransGen ClientState.AssertedStep (.initial F) s) :
    StateInv s.base.pointers ∧ PointersOnly s.base := by
  induction h with
  | refl => exact ⟨stateInv_initial F, pointersOnly_initial F⟩
  | tail _ hstep ih =>
    obtain ⟨hstate, hpointers⟩ := ih
    rcases hstep.base with heq | ⟨a, ha, hasserted, hs⟩
    · rw [heq]
      exact ⟨hstate, hpointers⟩
    · exact ⟨stateInv_pointers hstate ha (by rintro rfl; exact hasserted) hs,
        hpointers.step hphi ha hs⟩

/-! ## Removals -/

/-- Without entries of its own, `R` is no call that depends on `R`. -/
theorem no_reinserted_call {calls : CallCaches} {short : BlockId → Prop} {F : Function S.AA}
    (h : CallInv S F short calls) (hnone : calls.nonLocalDeps R = none) :
    R ∉ (calls.reverseNonLocalDeps (.inst R)).getD [] := by
  intro hx
  cases hset : calls.reverseNonLocalDeps (.inst R) with
  | none => simp [hset] at hx
  | some Set =>
    rw [hset, Option.getD_some] at hx
    obtain ⟨info, hinfo, _⟩ := (h.rev.mem_set_iff hset).mp hx
    rw [hnone] at hinfo
    cases hinfo

/-- What the pointers of the caches come to, the caches come to. -/
theorem invalidate_of_pointers {F : Function S.AA} {c d : Caches} {Ptr : Value}
    (h : invalidateCachedPointerInfo F c.pointers Ptr = .ok d) :
    ∃ c', invalidateCachedPointerInfo F c Ptr = .ok c' ∧ c'.pointers = d := by
  rw [invalidate_pointers] at h
  cases hc : invalidateCachedPointerInfo F c Ptr with
  | error e =>
    rw [hc] at h
    cases h
  | ok c' =>
    rw [hc] at h
    exact ⟨c', rfl, Except.ok.inj h⟩

/-- After its records are thrown out, no pointer that depends on `R` is `R`. -/
theorem no_reinserted_pointer {F : Function S.AA} {c c' : Caches} (hcons : Consistent F c)
    (hkeys : KeysPoint S.AA c) (hr : invalidateCachedPointerInfo F c (.inst R) = .ok c')
    {P : ValueIsLoadPair} (hP : c'.reverseNonLocalPtrDeps.Mem (.inst R) P) :
    P.1 ≠ some (.inst R) := by
  obtain ⟨hok, hfail⟩ := invalidateCachedPointerInfo_spec hcons (.inst R)
  obtain ⟨c1, hc1, hforgets⟩ := hok (hfail c' hr)
  rw [hr] at hc1
  cases hc1
  obtain ⟨e, he, _⟩ := (hforgets.consistent.ptrs.mem_iff _ P).mp hP
  obtain ⟨ptr, isLoad⟩ := P
  rintro rfl
  have hne : c.entries (some (.inst R), isLoad) ≠ [] := by
    rcases hforgets.entries (some (.inst R), isLoad) with hsame | hnil
    · rw [← hsame]
      exact List.ne_nil_of_mem he
    · rw [hnil] at he
      cases he
  have hnone := invalidate_keys (hkeys _ hne _ rfl) hr isLoad
  rw [Caches.entries_of_none hnone] at he
  cases he

/-- In every state of a run in which the assertions of walks hold, the removal of an instruction
goes through exactly if no entry of the instruction as a call is `NonLocal`, no two of them hold the
same constant, and no entry of it as a pointer holds a constant. -/
theorem removeFromAll_iff (hphi : S.phi.KeepsPointers S.AA)
    (h : ReflTransGen ClientState.AssertedStep (.initial F) s) (R : InstId) :
    (∃ r, removeFromAll s.base.F s.base.caches s.calls R = .ok r) ↔
      CallRemovable s.calls R ∧ NoMarkers S.AA s.base.caches (.inst R) := by
  have hinv : ClientInv F s := clientInv_of_run (h.lift id fun _ _ hstep => hstep.step)
  obtain ⟨hstate, hpointers⟩ := pointersOnly_of_run hphi h
  have hcons : Consistent s.base.F s.base.caches.pointers := hstate.consistent
  constructor
  · intro ⟨⟨c', calls'⟩, hr⟩
    obtain ⟨hbase, calls1, hcalls1, _⟩ := of_removeFromAll_ok hr
    obtain ⟨c1, h1, hbase⟩ := bind_eq_ok.mp hbase
    obtain ⟨c2, h2, _⟩ := bind_eq_ok.mp hbase
    refine ⟨((removeCallDeps_spec hinv.calls).2 calls1 hcalls1).1, ?_⟩
    have hc2 : invalidateCachedPointerInfo s.base.F s.base.caches.pointers (.inst R) =
        .ok c2.pointers := by
      rw [← removeLocalDep_pointers h1, invalidate_pointers, h2]
      rfl
    exact (invalidateCachedPointerInfo_spec hcons (.inst R)).2 _ hc2
  · intro ⟨hremovable, hmarkers⟩
    obtain ⟨calls1, hcalls1⟩ := (removeCallDeps_spec hinv.calls).1 hremovable
    obtain ⟨_, hcalls, hnone⟩ := (removeCallDeps_spec hinv.calls).2 calls1 hcalls1
    obtain ⟨c1, h1, hlocals1, hnone1, _⟩ := removeLocalDep_locals hinv.locals R
    obtain ⟨d, hd, _⟩ := (invalidateCachedPointerInfo_spec hcons (.inst R)).1 hmarkers
    obtain ⟨c2, h2, rfl⟩ := invalidate_of_pointers (c := c1)
      (by rw [removeLocalDep_pointers h1, hd])
    have hsame := invalidate_locals h2
    obtain ⟨c3, h3, _, _, _, hrev3⟩ :=
      dirtyLocalDeps_locals (hlocals1.same hsame) (R := R) (by rw [hsame.1, hnone1])
    have hpointer : ¬ ((c3.reverseNonLocalPtrDeps (.inst R)).getD []).any
        (·.1 = some (.inst R)) = true := by
      rw [List.any_eq_true]
      intro ⟨P, hP, hx⟩
      cases hset : c3.reverseNonLocalPtrDeps (.inst R) with
      | none => simp [hset] at hP
      | some Set =>
        rw [hset, Option.getD_some] at hP
        rw [hrev3] at hset
        exact no_reinserted_pointer hcons hpointers.caches hd ⟨Set, hset, hP⟩ (by simpa using hx)
    have hagain : ¬ ((dirtyCallDeps s.base.F calls1 R).nonLocalDeps R).isSome := by
      rw [(dirtyCallDeps_eq hcalls).1, hnone]
      simp
    refine ⟨(dirtyPtrDeps s.base.F c3 R, dirtyCallDeps s.base.F calls1 R), ?_⟩
    refine bind_eq_ok.mpr ⟨calls1, hcalls1, bind_eq_ok.mpr ⟨c1, h1, bind_eq_ok.mpr ⟨c2, h2,
      bind_eq_ok.mpr ⟨c3, h3, ?_⟩⟩⟩⟩
    dsimp only
    rw [if_neg (no_reinserted_call hcalls hnone), if_neg hpointer, if_neg hagain]

/-- The second call has been queried, and one of its entries depends on the first one. -/
theorem removeFromAll_second : ∃ s, CallBlocks.queried = .ok s ∧
    s.calls.nonLocalDeps 2 = some ⟨[⟨0, .clobber 0⟩], false⟩ ∧
      ∃ r, removeFromAll s.base.F s.base.caches s.calls 2 = .ok r := by
  have hrun : ∀ s, CallBlocks.queried = .ok s →
      ReflTransGen ClientState.AssertedStep CallBlocks.start s :=
    fun s hs => .single ⟨.getNonLocalCallDependency 2, ⟨rfl, rfl⟩, trivial, hs⟩
  refine ⟨_, rfl, rfl, (removeFromAll_iff (fun _ _ _ h => h) (hrun _ rfl) 2).mpr ⟨?_, ?_⟩⟩
  · intro info hinfo
    obtain rfl : ⟨[⟨0, .clobber 0⟩], false⟩ = info := Option.some.inj hinfo
    exact ⟨by decide, by decide⟩
  · exact fun _ => ⟨by decide, by decide⟩

end Runs

end FlowDep
end DepTaint
