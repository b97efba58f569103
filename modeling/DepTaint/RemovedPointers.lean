import DepTaint.CacheRuns
import DepTaint.ClientRuns

/-!
# RemovedPointers

What a removal leaves of the entries of pointers. A client calls the analysis in any order; in a run
of careful steps the entries agree with their reverse map, so the removal finds all of them.
-/

namespace DepTaint
namespace FlowDep

open Relation

variable {S : FiniteSetting} {F F' : Function S.AA} {s s' : ClientState S} {R : InstId}
  {c c' : Caches} {P : ValueIsLoadPair}

/-- As for `State`; the query of a call makes a local query. -/
def ClientState.Careful (s : ClientState S) : ClientAction S → Prop
  | .base a => s.base.Careful a
  | .getNonLocalCallDependency QueryCS => s.base.Careful (.getDependency QueryCS)
  | .answerCall _ => True
  | .removeInstruction RemInst F' => s.base.Careful (.removeInstruction RemInst F')

def ClientState.CarefulStep (s s' : ClientState S) : Prop :=
  ∃ a, s.Enabled a ∧ s.Careful a ∧ s.step a = .ok s'

/-- The pointers see a careful step of the client as one of their own, or not at all. -/
theorem ClientState.CarefulStep.base (h : ClientState.CarefulStep s s') :
    s'.base = s.base ∨ State.CarefulStep s.base s'.base := by
  obtain ⟨a, ha, hcareful, hs⟩ := h
  cases a with
  | base a =>
    obtain ⟨b, hb, hs⟩ := bind_eq_ok.mp hs
    cases hs
    exact .inr ⟨a, ha.1, hcareful, hb⟩
  | getNonLocalCallDependency Q =>
    obtain ⟨⟨es, c, calls⟩, hc, hs⟩ := bind_eq_ok.mp hs
    cases hs
    obtain ⟨⟨r, hr⟩, _⟩ := of_getNonLocalCallDependency_ok hc
    exact .inr ⟨.getDependency Q, ha, hcareful, bind_eq_ok.mpr ⟨_, hr, rfl⟩⟩
  | answerCall Q =>
    obtain ⟨⟨es, calls⟩, _, hs⟩ := bind_eq_ok.mp hs
    cases hs
    exact .inl rfl
  | removeInstruction R F' =>
    obtain ⟨⟨c, calls⟩, hc, hs⟩ := bind_eq_ok.mp hs
    cases hs
    obtain ⟨hwalk, hR, hF⟩ := ha
    refine .inr ⟨.removeInstruction R F', ⟨hwalk, hR, hF.keeps⟩, hcareful, ?_⟩
    exact bind_eq_ok.mpr ⟨c, (of_removeFromAll_ok hc).1, rfl⟩

theorem removeCached_key (h : removeCachedNonLocalPointerDependencies F c P = .ok c') :
    c'.nonLocalPointerDeps P = none ∧
      ∀ P', P' ≠ P → c'.nonLocalPointerDeps P' = c.nonLocalPointerDeps P' := by
  unfold removeCachedNonLocalPointerDependencies at h
  split at h
  next hnone =>
    cases h
    exact ⟨hnone, fun _ _ => rfl⟩
  next =>
    obtain ⟨m, _, h⟩ := bind_eq_ok.mp h
    cases h
    exact ⟨by simp, fun P' hP' => by simp [hP']⟩

theorem invalidate_keys {Ptr : Value} (hptr : S.AA.isPointerTy Ptr = true)
    (h : invalidateCachedPointerInfo F c Ptr = .ok c') (isLoad : Bool) :
    c'.nonLocalPointerDeps (some Ptr, isLoad) = none := by
  rw [invalidateCachedPointerInfo, if_pos hptr] at h
  obtain ⟨c1, h1, h2⟩ := bind_eq_ok.mp h
  cases isLoad with
  | true => exact (removeCached_key h2).1
  | false =>
    rw [(removeCached_key h2).2 _ (by simp)]
    exact (removeCached_key h1).1

theorem dirtyPtrDeps_key (h : ¬ c.reverseNonLocalPtrDeps.Mem (.inst R) P) :
    (dirtyPtrDeps F c R).nonLocalPointerDeps P = c.nonLocalPointerDeps P := by
  unfold dirtyPtrDeps
  cases hrev : c.reverseNonLocalPtrDeps (.inst R) with
  | none => rfl
  | some Set =>
    have hP : P ∉ Set := fun hP => h ⟨Set, hrev, hP⟩
    refine foldl_invariant (P := fun _ (t : Caches × List (InstPtr × ValueIsLoadPair)) =>
      t.1.nonLocalPointerDeps P = c.nonLocalPointerDeps P) rfl fun pre Q post t hsplit ht => ?_
    have hQ : P ≠ Q := by
      rintro rfl
      exact hP (by simp [hsplit])
    rw [← ht]
    simp [dirtyPtrDep, Caches.setPair, Caches.setEntries, Caches.setInfo, hQ]

theorem Caches.entries_of_none (h : c.nonLocalPointerDeps P = none) : c.entries P = [] := by
  simp [Caches.entries, Caches.info, h]

end FlowDep
end DepTaint
