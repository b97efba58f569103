import Mathlib.Algebra.GroupWithZero.Nat
import DepTaint.PointerEntries

/-!
# WalkParts

What the parts of a walk for a pointer can do, and when the walk is over.

`Part` has a constructor for each way through a part; `advance_part` reads it off `Walk.advance`, and
the invariants of a walk go by its cases.

* `advance_part`, `advance_over`: the next part of a walk is one of these, or the walk is over.
* `Part.left_lt`: every part brings the walk closer to its end.
-/

namespace DepTaint
namespace FlowDep

/-! ## The predecessors of a block -/

section VisitPreds

variable {addr : BlockId → Option Value} {ps newBlocks nb : List BlockId} {v v' : Visited}

/-- The predecessors `ps` are marked with their addresses, `new` of them for the first time. -/
structure Marks (addr : BlockId → Option Value) (ps : List BlockId) (v v' : Visited)
    (new : List BlockId) : Prop where
  nodup : new.Nodup
  fresh : ∀ b ∈ new, v b = none ∧ b ∈ ps
  preds : ∀ p ∈ ps, v' p = some (addr p)
  mono : ∀ b a, v b = some a → v' b = some a
  marked : ∀ b a, v' b = some a → v b = some a ∨ b ∈ new ∧ a = addr b

theorem visitPreds_marks (h : visitPreds addr ps v newBlocks = some (v', nb)) :
    ∃ new, nb = newBlocks ++ new ∧ Marks addr ps v v' new := by
  induction ps generalizing v newBlocks with
  | nil =>
    cases h
    exact ⟨[], by simp, by simp, by simp, by simp, fun _ _ hb => hb, fun _ _ hb => .inl hb⟩
  | cons p ps ih =>
    unfold visitPreds at h
    cases hp : v p with
    | none =>
      simp only [hp] at h
      obtain ⟨new, hnb, hm⟩ := ih h
      have hpv : v' p = some (addr p) := hm.mono p _ (by simp)
      have hne : ∀ b ∈ new, b ≠ p := by
        rintro b hb rfl
        simpa using (hm.fresh b hb).1
      refine ⟨p :: new, by simp [hnb], List.nodup_cons.mpr ⟨fun hp => hne p hp rfl, hm.nodup⟩,
        fun b hb => ?_, fun q hq => ?_, fun b a hb => ?_, fun b a hb => ?_⟩
      · rcases List.mem_cons.mp hb with rfl | hb
        · exact ⟨hp, List.mem_cons_self ..⟩
        · obtain ⟨hnone, hps⟩ := hm.fresh b hb
          rw [Function.update_of_ne (hne b hb)] at hnone
          exact ⟨hnone, List.mem_cons_of_mem _ hps⟩
      · rcases List.mem_cons.mp hq with rfl | hq
        · exact hpv
        · exact hm.preds q hq
      · have hbp : b ≠ p := by
          rintro rfl
          rw [hp] at hb
          cases hb
        exact hm.mono b a (by rwa [Function.update_of_ne hbp])
      · rcases hm.marked b a hb with hold | ⟨hnew, ha⟩
        · by_cases hbp : b = p
          · subst hbp
            rw [Function.update_self] at hold
            exact .inr ⟨List.mem_cons_self .., (Option.some.inj hold).symm⟩
          · rw [Function.update_of_ne hbp] at hold
            exact .inl hold
        · exact .inr ⟨List.mem_cons_of_mem _ hnew, ha⟩
    | some a =>
      simp only [hp] at h
      split at h
      · cases h
      · rename_i ha
        obtain ⟨new, hnb, hm⟩ := ih h
        have ha : a = addr p := by simpa using ha
        refine ⟨new, hnb, hm.nodup, fun b hb => ?_, fun q hq => ?_, hm.mono, hm.marked⟩
        · exact ⟨(hm.fresh b hb).1, List.mem_cons_of_mem _ (hm.fresh b hb).2⟩
        · rcases List.mem_cons.mp hq with rfl | hq
          · exact hm.mono q a hp |>.trans (by rw [ha])
          · exact hm.preds q hq

end VisitPreds

/-! ## The ways through a part -/

section Part

variable {S : Setting}

/-- The search does not end at the block of the entry: it is transparent, or the entry block does not
reach it. -/
def Opens (S : Setting) (e : NonLocalDepEntry) : Prop :=
  e.result.isNonLocal = true ∨ ∃ isReachable, S.DT = some isReachable ∧ isReachable e.BB = false

/-- The walk after the cached entries of the address have answered a call. -/
def Walk.useCached (w : Walk S) (addr : Option Value) (Cache : List NonLocalDepEntry) : Walk S :=
  { w with
    visited := Cache.foldl (fun v e => v.insert e.BB addr) w.visited
    result := w.result ++ Cache.filterMap (cachedResult S addr)
    control := .ret false }

section UseCached

variable {w : Walk S} {addr a : Option Value} {Cache : List NonLocalDepEntry} {b : BlockId}

theorem useCached_mono (h : w.visited b = some a) :
    (w.useCached addr Cache).visited b = some a := by
  refine foldl_preserves (P := fun v : Visited => v b = some a) h fun v e _ hv => ?_
  rw [Visited.insert]
  split
  · exact hv
  · rename_i hnone
    have hne : b ≠ e.BB := by
      rintro rfl
      simp [hv] at hnone
    rwa [Function.update_of_ne hne]

/-- Only the blocks of the cached entries are marked. -/
theorem useCached_visited (h : (w.useCached addr Cache).visited b = some a) :
    w.visited b = some a ∨ a = addr ∧ ∃ e ∈ Cache, e.BB = b := by
  refine foldl_invariant (P := fun done (v : Visited) => v b = some a → w.visited b = some a ∨
    a = addr ∧ ∃ e ∈ done, e.BB = b) (fun h => .inl h) (fun done e post v _ ih hv => ?_) h
  have hold : v b = some a → w.visited b = some a ∨ a = addr ∧ ∃ x ∈ done ++ [e], x.BB = b := by
    intro hv
    refine (ih hv).imp_right fun ⟨ha, x, hx, hxb⟩ => ⟨ha, x, ?_, hxb⟩
    exact List.mem_append_left _ hx
  unfold Visited.insert at hv
  split at hv
  · exact hold hv
  · by_cases hb : b = e.BB
    · subst hb
      rw [Function.update_self] at hv
      exact .inr ⟨(Option.some.inj hv).symm, e, by simp, rfl⟩
    · rw [Function.update_of_ne hb] at hv
      exact hold hv

/-- The blocks of the cached entries are marked with their address. -/
theorem useCached_marks (hsame : ∀ e ∈ Cache, ∀ a, w.visited e.BB = some a → a = addr)
    {e : NonLocalDepEntry} (he : e ∈ Cache) :
    (w.useCached addr Cache).visited e.BB = some addr := by
  have hsome : ((w.useCached addr Cache).visited e.BB).isSome := by
    refine foldl_invariant (P := fun done (v : Visited) => ∀ e ∈ done, (v e.BB).isSome)
      (by simp) (fun done x post v _ ih y hy => ?_) e he
    rcases List.mem_append.mp hy with hy | hy
    · exact isSome_insert (ih y hy)
    · rw [List.mem_singleton.mp hy, Visited.insert]
      split
      · assumption
      · simp
  obtain ⟨a, ha⟩ := Option.isSome_iff_exists.mp hsome
  rcases useCached_visited ha with hold | ⟨rfl, _⟩
  · rw [ha, hsame e he a hold]
  · exact ha

end UseCached

/-- The ways through a part that does not end the walk. -/
inductive Part (F : Function S.AA) (c : Caches) (w : Walk S) : Caches → Walk S → Prop
  | restart {pointer : S.phi.Addr} {loc loc' : Location} {startBB : BlockId} {skip : Bool}
      {c' : Caches} (hw : w.control = .enter pointer loc startBB skip)
      (hr : reconcile c (S.phi.getAddr pointer, w.isLoad) loc = .ok (c', some loc')) :
      Part F c w c' { w with control := .enter pointer loc' startBB skip }
  | agree {pointer : S.phi.Addr} {loc : Location} {startBB : BlockId} {skip : Bool}
      {c' : Caches} (hw : w.control = .enter pointer loc startBB skip)
      (hr : reconcile c (S.phi.getAddr pointer, w.isLoad) loc = .ok (c', none)) :
      Part F c w c' { w with control := .lookup pointer loc startBB skip }
  | conflict {pointer : S.phi.Addr} {loc : Location} {startBB : BlockId} {skip : Bool}
      (hw : w.control = .lookup pointer loc startBB skip)
      (hpair : (c.info (S.phi.getAddr pointer, w.isLoad)).pair = some (startBB, skip))
      (hother : ∃ b, (w.visited b).isSome) :
      Part F c w c { w with control := .ret true }
  | cached {pointer : S.phi.Addr} {loc : Location} {startBB : BlockId} {skip : Bool}
      (hw : w.control = .lookup pointer loc startBB skip)
      (hpair : (c.info (S.phi.getAddr pointer, w.isLoad)).pair = some (startBB, skip))
      (hsame : ∀ e ∈ c.entries (S.phi.getAddr pointer, w.isLoad), ∀ a,
        w.visited e.BB = some a → a = S.phi.getAddr pointer) :
      Part F c w c (w.useCached (S.phi.getAddr pointer)
        (c.entries (S.phi.getAddr pointer, w.isLoad)))
  | start {pointer : S.phi.Addr} {loc : Location} {startBB : BlockId} {skip : Bool}
      (hw : w.control = .lookup pointer loc startBB skip) :
      Part F c w
        (c.setPair (S.phi.getAddr pointer, w.isLoad)
          (if c.entries (S.phi.getAddr pointer, w.isLoad) = [] then some (startBB, skip) else none))
        { w with
          control := .iterate
            { pointer, loc, skipFirstBlock := skip, worklist := [startBB]
              numSortedEntries := (c.entries (S.phi.getAddr pointer, w.isLoad)).length } }
  | finish {f : Frame S} (hw : w.control = .iterate f) (hwork : f.worklist = []) :
      Part F c w (f.sort c w.isLoad) { w with control := .ret false }
  | skip {f : Frame S} {BB : BlockId} {worklist : List BlockId} (hw : w.control = .iterate f)
      (hwork : f.worklist = BB :: worklist) (hskip : f.skipFirstBlock = true) :
      Part F c w c { w with control := .transparent { f with worklist := worklist } BB }
  | report {f : Frame S} {BB : BlockId} {worklist : List BlockId} {Dep r : FlowDepResult}
      {c' : Caches} (hw : w.control = .iterate f) (hwork : f.worklist = BB :: worklist)
      (hskip : f.skipFirstBlock = false)
      (hlook : getNonLocalInfoForBlock F c (f.key w.isLoad) f.loc w.isLoad BB f.numSortedEntries =
        .ok (Dep, c'))
      (hclosed : ¬ Opens S ⟨BB, Dep⟩) (hr : r = .other .unknown ∨ r = Dep) :
      Part F c w c'
        { w with
          result := w.result ++ [⟨BB, r, S.phi.getAddr f.pointer⟩]
          control := .iterate { f with worklist := worklist } }
  | pass {f : Frame S} {BB : BlockId} {worklist : List BlockId} {Dep : FlowDepResult}
      {c' : Caches} (hw : w.control = .iterate f) (hwork : f.worklist = BB :: worklist)
      (hskip : f.skipFirstBlock = false)
      (hlook : getNonLocalInfoForBlock F c (f.key w.isLoad) f.loc w.isLoad BB f.numSortedEntries =
        .ok (Dep, c'))
      (hopen : Opens S ⟨BB, Dep⟩) :
      Part F c w c' { w with control := .transparent { f with worklist := worklist } BB }
  | spread {f : Frame S} {BB : BlockId} {visited : Visited} {NewBlocks : List BlockId}
      (hw : w.control = .transparent f BB)
      (hneeds : S.phi.needsPHITranslationFromBlock f.pointer BB = false)
      (hvisit : visitPreds (fun _ => S.phi.getAddr f.pointer) (S.getPreds BB) w.visited [] =
        some (visited, NewBlocks)) :
      Part F c w c
        { w with
          visited := visited
          control := .iterate
            { f with skipFirstBlock := false, worklist := NewBlocks.reverse ++ f.worklist } }
  | translate {f : Frame S} {BB : BlockId} {visited : Visited} {NewBlocks : List BlockId}
      (hw : w.control = .transparent f BB)
      (hneeds : S.phi.needsPHITranslationFromBlock f.pointer BB = true)
      (hvisit : visitPreds (fun Pred => S.phi.getAddr (S.phi.pHITranslateValue f.pointer BB Pred))
        (S.getPreds BB) w.visited [] = some (visited, NewBlocks)) :
      Part F c w (f.sort c w.isLoad)
        { w with
          visited := visited
          control := .preds { f with numSortedEntries := (c.entries (f.key w.isLoad)).length }
            (NewBlocks.map fun Pred => (Pred, S.phi.pHITranslateValue f.pointer BB Pred)) }
  | stick {f f' : Frame S} {BB : BlockId} {c' : Caches} (hw : w.control = .transparent f BB)
      (hpointer : f'.pointer = f.pointer) (hloc : f'.loc = f.loc)
      (hwork : f'.worklist = f.worklist)
      (hskip : f'.skipFirstBlock = f.skipFirstBlock ∨
        f'.skipFirstBlock = false ∧ ∃ b, (w.visited b).isSome)
      (hc : c' = c ∨ c' = f.sort c w.isLoad)
      (hstuck : S.phi.needsPHITranslationFromBlock f.pointer BB = true ∨
        visitPreds (fun _ => S.phi.getAddr f.pointer) (S.getPreds BB) w.visited [] = none) :
      Part F c w c' { w with control := .failed f' BB }
  | giveUp {f : Frame S} {BB : BlockId} (hw : w.control = .failed f BB)
      (hskip : f.skipFirstBlock = true) :
      Part F c w (c.setPair (f.key w.isLoad) none) { w with control := .ret true }
  | overwrite {f : Frame S} {BB : BlockId} {es : List NonLocalDepEntry}
      (hw : w.control = .failed f BB) (hskip : f.skipFirstBlock = false)
      (hset : setLastResult BB (.other .unknown) (c.entries (f.key w.isLoad)) = some es) :
      Part F c w ((c.setPair (f.key w.isLoad) none).setEntries (f.key w.isLoad) es)
        { w with
          result := w.result ++ [⟨BB, .other .unknown, S.phi.getAddr f.pointer⟩]
          control := .iterate f }
  | resume {f : Frame S} (hw : w.control = .preds f []) :
      Part F c w (c.setPair (f.key w.isLoad) none)
        { w with
          control := .iterate
            { f with
              skipFirstBlock := false
              numSortedEntries := (c.entries (f.key w.isLoad)).length } }
  | untranslated {f : Frame S} {Pred : BlockId} {PredPointer : S.phi.Addr}
      {predList : List (BlockId × S.phi.Addr)}
      (hw : w.control = .preds f ((Pred, PredPointer) :: predList))
      (haddr : S.phi.getAddr PredPointer = none) :
      Part F c w (c.setPair (f.key w.isLoad) none)
        { w with
          result := w.result ++ [⟨Pred, .other .unknown, none⟩]
          control := .preds f predList }
  | call {f : Frame S} {Pred : BlockId} {PredPointer : S.phi.Addr}
      {predList : List (BlockId × S.phi.Addr)} {v : Value}
      (hw : w.control = .preds f ((Pred, PredPointer) :: predList))
      (haddr : S.phi.getAddr PredPointer = some v) :
      Part F c w c
        { w with
          control := .enter PredPointer { f.loc with ptr := some v } Pred false
          stack := ⟨f, Pred, some v, predList⟩ :: w.stack }
  | retFailed {s : Suspended S} {stack : List (Suspended S)} (hw : w.control = .ret true)
      (hstack : w.stack = s :: stack) :
      Part F c w (c.setPair (s.frame.key w.isLoad) none)
        { w with
          result := w.result ++ [⟨s.pred, .other .unknown, s.predPtrVal⟩]
          control := .preds s.frame s.predList
          stack := stack }
  | ret {s : Suspended S} {stack : List (Suspended S)} (hw : w.control = .ret false)
      (hstack : w.stack = s :: stack) :
      Part F c w c { w with control := .preds s.frame s.predList, stack := stack }

variable {F : Function S.AA} {c c' : Caches} {w w' : Walk S}

/-- The first block of the query, the location and the kind of access do not change. -/
structure SameQuery (w w' : Walk S) : Prop where
  loc : w'.loc = w.loc
  isLoad : w'.isLoad = w.isLoad
  fromBB : w'.fromBB = w.fromBB

theorem Part.sameQuery (h : Part F c w c' w') : SameQuery w w' := by
  cases h <;> exact ⟨rfl, rfl, rfl⟩

/-- What is marked stays marked. -/
theorem Part.visited_mono (h : Part F c w c' w') {b : BlockId} {a : Option Value}
    (hv : w.visited b = some a) : w'.visited b = some a := by
  cases h with
  | cached hw hpair hsame => exact useCached_mono hv
  | spread hw hneeds hvisit =>
    obtain ⟨new, _, hm⟩ := visitPreds_marks hvisit
    exact hm.mono b a hv
  | translate hw hneeds hvisit =>
    obtain ⟨new, _, hm⟩ := visitPreds_marks hvisit
    exact hm.mono b a hv
  | _ => exact hv

/-- What is reported stays reported. -/
theorem Part.result_mono (h : Part F c w c' w') {r : NonLocalDepResult} (hr : r ∈ w.result) :
    r ∈ w'.result := by
  cases h with
  | cached hw hpair hsame => exact List.mem_append_left _ hr
  | report hw hwork hskip hlook hclosed hres => exact List.mem_append_left _ hr
  | overwrite hw hskip hset => exact List.mem_append_left _ hr
  | untranslated hw haddr => exact List.mem_append_left _ hr
  | retFailed hw hstack => exact List.mem_append_left _ hr
  | _ => exact hr

theorem iterate_part {f : Frame S} (hw : w.control = .iterate f)
    (h : w.iterate F c f = .ok (c', .inl w')) : Part F c w c' w' := by
  unfold Walk.iterate at h
  cases hwork : f.worklist with
  | nil =>
    rw [hwork] at h
    cases h
    exact .finish hw hwork
  | cons BB worklist =>
    rw [hwork] at h
    dsimp only at h
    cases hskip : f.skipFirstBlock with
    | true =>
      rw [hskip] at h
      cases h
      exact hskip ▸ .skip hw hwork hskip
    | false =>
      rw [hskip, if_neg (by decide)] at h
      split at h
      · cases h
      obtain ⟨⟨Dep, c1⟩, hlook, h⟩ := bind_eq_ok.mp h
      dsimp only at h
      split at h
      next hnl =>
        cases h
        exact hskip ▸ .pass hw hwork hskip hlook (.inl hnl)
      next hnl =>
        split at h
        next hDT =>
          cases h
          refine hskip ▸ .report hw hwork hskip hlook ?_ (.inl rfl)
          rintro (hx | ⟨isReachable, hx, _⟩)
          · exact hnl hx
          · rw [hDT] at hx
            cases hx
        next isReachable hDT =>
          split at h
          next hreach =>
            cases h
            refine hskip ▸ .report hw hwork hskip hlook ?_ (.inr rfl)
            rintro (hx | ⟨isReachable', hx, hnot⟩)
            · exact hnl hx
            · rw [hDT] at hx
              cases hx
              exact absurd (hreach.symm.trans hnot) (by decide)
          next hreach =>
            cases h
            exact hskip ▸ .pass hw hwork hskip hlook (.inr ⟨_, hDT, by simpa using hreach⟩)

theorem transparent_part {f : Frame S} {BB : BlockId} (hw : w.control = .transparent f BB)
    (h : w.transparent c f BB = (c', .inl w')) : Part F c w c' w' := by
  unfold Walk.transparent at h
  split at h
  next hneeds =>
    simp only [Bool.not_eq_true'] at hneeds
    dsimp only at h
    split at h
    next hvisit =>
      cases h
      refine .stick hw rfl rfl rfl (.inr ⟨rfl, ?_⟩) (.inl rfl) (.inr hvisit)
      by_contra hnone
      have hsome : (visitPreds (fun _ => S.phi.getAddr f.pointer) (S.getPreds BB) w.visited
          []).isSome := by
        refine visitPreds_isSome fun b => .inl ?_
        by_contra hb
        exact hnone ⟨b, Option.isSome_iff_ne_none.mpr hb⟩
      rw [hvisit] at hsome
      cases hsome
    next visited NewBlocks hvisit =>
      cases h
      exact .spread hw hneeds hvisit
  next hneeds =>
    simp only [Bool.not_eq_true', Bool.not_eq_false] at hneeds
    split at h
    · cases h
      exact .stick hw rfl rfl rfl (.inl rfl) (.inl rfl) (.inl hneeds)
    · dsimp only at h
      split at h
      next =>
        cases h
        exact .stick hw rfl rfl rfl (.inl rfl) (.inr rfl) (.inl hneeds)
      next visited NewBlocks hvisit =>
        cases h
        exact .translate hw hneeds hvisit

/-- The next part of a walk is one of the ways through it. -/
theorem advance_part (h : w.advance F c = .ok (c', .inl w')) : Part F c w c' w' := by
  unfold Walk.advance at h
  split at h
  next pointer loc startBB skip hw =>
    obtain ⟨⟨c1, restart⟩, hr, h⟩ := bind_eq_ok.mp h
    cases restart with
    | none =>
      cases h
      exact .agree hw hr
    | some loc' =>
      cases h
      exact .restart hw hr
  next pointer loc startBB skip hw =>
    obtain h := Except.ok.inj h
    unfold Walk.lookup at h
    dsimp only at h
    split at h
    next hpair =>
      split at h
      next hany =>
        cases h
        obtain ⟨e, _, he⟩ := List.any_eq_true.mp hany
        exact .conflict hw hpair ⟨e.BB, (Option.any_eq_true_iff_get _ _).mp he |>.1⟩
      next hany =>
        cases h
        refine .cached hw hpair fun e he a ha => ?_
        by_contra hne
        exact hany (List.any_eq_true.mpr ⟨e, he, by simp [ha, hne]⟩)
    next hpair =>
      cases h
      exact .start hw
  next f hw => exact iterate_part hw h
  next f BB hw => exact transparent_part hw (Except.ok.inj h)
  next f BB hw =>
    unfold Walk.failed at h
    dsimp only at h
    split at h
    next hskip =>
      cases h
      exact .giveUp hw hskip
    next hskip =>
      split at h
      next => cases h
      next es hset =>
        cases h
        rw [Caches.entries_setPair] at hset
        exact .overwrite hw (by simpa using hskip) hset
  next f predList hw =>
    obtain h := Except.ok.inj h
    unfold Walk.preds at h
    split at h
    next =>
      cases h
      exact .resume hw
    next Pred PredPointer predList =>
      split at h
      next haddr =>
        cases h
        exact .untranslated hw haddr
      next v haddr =>
        cases h
        exact .call hw haddr
  next failed hw =>
    obtain h := Except.ok.inj h
    unfold Walk.ret at h
    split at h
    next => cases h
    next s stack hstack =>
      cases failed with
      | true =>
        cases h
        exact .retFailed hw hstack
      | false =>
        cases h
        exact .ret hw hstack

/-- A walk is over when the first activation returns. -/
theorem advance_over {result : List NonLocalDepResult}
    (h : w.advance F c = .ok (c', .inr result)) :
    c' = c ∧ w.stack = [] ∧ ∃ failed, w.control = .ret failed ∧
      result = if failed then w.result ++ [⟨w.fromBB, .other .unknown, w.loc.ptr⟩]
        else w.result := by
  unfold Walk.advance at h
  split at h
  next =>
    obtain ⟨⟨c1, restart⟩, hr, h⟩ := bind_eq_ok.mp h
    cases restart <;> cases h
  next =>
    obtain h := Except.ok.inj h
    unfold Walk.lookup at h
    dsimp only at h
    split at h
    · split at h <;> cases h
    · cases h
  next f hw =>
    unfold Walk.iterate at h
    split at h
    · cases h
    · dsimp only at h
      split at h
      · cases h
      · split at h
        · cases h
        · obtain ⟨⟨Dep, c1⟩, _, h⟩ := bind_eq_ok.mp h
          dsimp only at h
          split at h
          · cases h
          · split at h
            · cases h
            · split at h <;> cases h
  next =>
    obtain h := Except.ok.inj h
    unfold Walk.transparent at h
    split at h
    · dsimp only at h
      split at h <;> cases h
    · split at h
      · cases h
      · dsimp only at h
        split at h <;> cases h
  next =>
    unfold Walk.failed at h
    dsimp only at h
    split at h
    · cases h
    · split at h <;> cases h
  next =>
    obtain h := Except.ok.inj h
    unfold Walk.preds at h
    split at h
    · cases h
    · split at h <;> cases h
  next failed hw =>
    obtain h := Except.ok.inj h
    unfold Walk.ret at h
    split at h
    next hstack =>
      cases h
      exact ⟨rfl, hstack, failed, hw, rfl⟩
    next =>
      split at h <;> cases h

end Part

/-! ## The end of a walk -/

section Measure

variable {S : FiniteSetting} {F : Function S.AA} {c c' : Caches} {w w' : Walk S.toSetting}

/-- The blocks that are not marked yet. -/
def unvisited (S : FiniteSetting) (v : Visited) : Finset BlockId :=
  S.blocks.filter fun b => v b = none

/-- What an activation that goes through its predecessors has left to do. -/
def leftInPreds (f : Frame S.toSetting) (predList : List (BlockId × S.phi.Addr)) : Nat :=
  3 + 4 * f.worklist.length + 11 * predList.length

def Control.left (c : Caches) (isLoad : Bool) : Control S.toSetting → Nat
  | .enter pointer loc _ _ => 8 + restarts c (S.phi.getAddr pointer, isLoad) loc
  | .lookup .. => 7
  | .iterate f => 2 + 4 * f.worklist.length
  | .transparent f _ => 5 + 4 * f.worklist.length
  | .failed f _ => 4 + 4 * f.worklist.length
  | .preds f predList => leftInPreds f predList
  | .ret _ => 1

def Walk.left (c : Caches) (w : Walk S.toSetting) : Nat :=
  11 * (unvisited S w.visited).card + w.control.left c w.isLoad +
    (w.stack.map fun s => leftInPreds s.frame s.predList).sum

theorem restarts_le (c : Caches) (P : ValueIsLoadPair) (loc : Location) : restarts c P loc ≤ 2 := by
  unfold restarts
  split <;> split <;> omega

theorem unvisited_subset {v v' : Visited} (h : ∀ b a, v b = some a → v' b = some a) :
    unvisited S v' ⊆ unvisited S v := by
  intro b hb
  obtain ⟨hb, hnone⟩ := Finset.mem_filter.mp hb
  refine Finset.mem_filter.mpr ⟨hb, ?_⟩
  cases hv : v b with
  | none => rfl
  | some a =>
    rw [h b a hv] at hnone
    cases hnone

/-- The blocks marked for the first time are fewer to come. -/
theorem card_unvisited_marks {addr : BlockId → Option Value} {BB : BlockId} {v v' : Visited}
    {new : List BlockId} (h : Marks addr (S.getPreds BB) v v' new) :
    (unvisited S v').card + new.length ≤ (unvisited S v).card := by
  have hdisjoint : Disjoint (unvisited S v') new.toFinset := by
    refine Finset.disjoint_left.mpr fun b hb hnew => ?_
    have hnone := (Finset.mem_filter.mp hb).2
    rw [h.preds b (h.fresh b (List.mem_toFinset.mp hnew)).2] at hnone
    cases hnone
  rw [← List.toFinset_card_of_nodup h.nodup, ← Finset.card_union_of_disjoint hdisjoint]
  refine Finset.card_le_card fun b hb => ?_
  rcases Finset.mem_union.mp hb with hb | hb
  · exact unvisited_subset h.mono hb
  · obtain ⟨hnone, hpred⟩ := h.fresh b (List.mem_toFinset.mp hb)
    exact Finset.mem_filter.mpr ⟨S.preds_mem BB b hpred, hnone⟩

/-- Every part brings the walk closer to its end. -/
theorem Part.left_lt (h : Part F c w c' w') : w'.left c' < w.left c := by
  cases h with
  | restart hw hr =>
    have := ((reconcile_reconciles hr).again _ rfl).2.2
    simp only [Walk.left, Control.left, hw]
    omega
  | agree hw hr =>
    simp only [Walk.left, Control.left, hw]
    omega
  | conflict hw hpair hother =>
    simp only [Walk.left, Control.left, hw]
    omega
  | @cached pointer loc startBB skip hw hpair hsame =>
    have hle : (unvisited S (w.useCached (S.phi.getAddr pointer)
        (c.entries (S.phi.getAddr pointer, w.isLoad))).visited).card ≤
          (unvisited S w.visited).card :=
      Finset.card_le_card (unvisited_subset fun _ _ hv => useCached_mono hv)
    simp only [Walk.left, Control.left, hw, Walk.useCached] at hle ⊢
    omega
  | start hw =>
    simp only [Walk.left, Control.left, hw, List.length_singleton]
    omega
  | finish hw hwork =>
    simp only [Walk.left, Control.left, hw]
    omega
  | skip hw hwork hskip =>
    simp only [Walk.left, Control.left, hw, hwork, List.length_cons]
    omega
  | report hw hwork hskip hlook hclosed hr =>
    simp only [Walk.left, Control.left, hw, hwork, List.length_cons]
    omega
  | pass hw hwork hskip hlook hopen =>
    simp only [Walk.left, Control.left, hw, hwork, List.length_cons]
    omega
  | spread hw hneeds hvisit =>
    obtain ⟨new, hnb, hm⟩ := visitPreds_marks hvisit
    rw [List.nil_append] at hnb
    subst hnb
    have := card_unvisited_marks hm
    simp only [Walk.left, Control.left, hw, List.length_append, List.length_reverse]
    omega
  | translate hw hneeds hvisit =>
    obtain ⟨new, hnb, hm⟩ := visitPreds_marks hvisit
    rw [List.nil_append] at hnb
    subst hnb
    have := card_unvisited_marks hm
    simp only [Walk.left, Control.left, hw, leftInPreds, List.length_map]
    omega
  | stick hw hpointer hloc hwork hskip hc hstuck =>
    simp only [Walk.left, Control.left, hw, hwork]
    omega
  | giveUp hw hskip =>
    simp only [Walk.left, Control.left, hw]
    omega
  | overwrite hw hskip hset =>
    simp only [Walk.left, Control.left, hw]
    omega
  | resume hw =>
    simp only [Walk.left, Control.left, hw, leftInPreds]
    omega
  | untranslated hw haddr =>
    simp only [Walk.left, Control.left, hw, leftInPreds, List.length_cons]
    omega
  | @call f Pred PredPointer predList v hw haddr =>
    have := restarts_le c (S.phi.getAddr PredPointer, w.isLoad)
      ⟨some v, f.loc.size, f.loc.tbaaTag⟩
    simp only [Walk.left, Control.left, hw, leftInPreds, List.length_cons, List.map_cons,
      List.sum_cons]
    omega
  | retFailed hw hstack =>
    simp only [Walk.left, Control.left, hw, hstack, List.map_cons, List.sum_cons]
    omega
  | ret hw hstack =>
    simp only [Walk.left, Control.left, hw, hstack, List.map_cons, List.sum_cons]
    omega

end Measure

end FlowDep
end DepTaint
