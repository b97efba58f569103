import DepTaint.HeapOrder
import DepTaint.PropagationTrace

/-!
# TaintNames

The names an instruction ends up with in `taintMap`.

A wrapper is enqueued once, and its instruction takes the names of the wrapper it is first reached
from.

* `enqueue_names`: the names a coloured wrapper passes on are kept by the enqueued one.
* `FirstVisits`: what the history of a run says about the names.
* `first_visit_names`: every wrapper a coloured one is linked to is reached, and keeps what the
  first one to reach it passed on.
-/

namespace DepTaint
namespace PDG

/-- The names recorded for an instruction. -/
def namesOf (s : PropState) (I : InstId) : Finset String := (s.taintMap I).getD ∅

section Enqueue

variable {M : Module} {W adj : InstructionWrapper} {I : InstId} {taints : Finset String}
  {s s' : PropState}

theorem colorAdjacent_names (h : colorAdjacent W taints adj I s = .ok s')
    (hc : s.coloredInstSet W = true) : taints ⊆ namesOf s' I := by
  unfold colorAdjacent at h
  rw [if_pos hc] at h
  obtain ⟨_, _, h⟩ := bind_eq_ok.mp h
  cases h
  simp [namesOf]

theorem visitBranch_names (h : visitBranch M I s = .ok s') : namesOf s I ⊆ namesOf s' I := by
  unfold visitBranch at h
  split at h
  · obtain ⟨_, _, h⟩ := bind_eq_ok.mp h
    cases h
    intro x hx
    simp only [namesOf, Function.update_self, Option.getD_some, Finset.mem_union]
    exact .inl hx
  · cases h
    exact Finset.Subset.refl _

theorem insertTaint_names (s : PropState) (I : InstId) (name : String) :
    namesOf s I ⊆ namesOf (s.insertTaint I name) I := by
  intro x hx
  simp only [namesOf, PropState.insertTaint, Function.update_self, Option.getD_some]
  exact Finset.mem_insert_of_mem hx

theorem visitMemory_names (h : visitMemory M W I s = .ok s') : namesOf s I ⊆ namesOf s' I := by
  unfold visitMemory at h
  split at h
  · split at h
    · unfold visitStore at h
      dsimp only at h
      split at h
      · obtain ⟨_, _, h⟩ := bind_eq_ok.mp h
        obtain ⟨_, _, h⟩ := bind_eq_ok.mp h
        cases h
        exact insertTaint_names ..
      · cases h
        exact insertTaint_names ..
    · cases h
      exact Finset.Subset.refl _
  · split at h
    · obtain ⟨_, _, h⟩ := bind_eq_ok.mp h
      split at h
      · obtain ⟨_, _, h⟩ := bind_eq_ok.mp h
        split at h <;> cases h <;> exact insertTaint_names ..
      · cases h
        exact Finset.Subset.refl _
    · cases h
      exact Finset.Subset.refl _
  · split at h
    · cases h
      exact Finset.Subset.refl _
    · cases h

/-- What a coloured wrapper passes on is kept. -/
theorem enqueue_names (h : enqueue M W taints adj I s = .ok s')
    (hc : s.coloredInstSet W = true) : taints ⊆ namesOf s' I := by
  obtain ⟨s1, h1, h⟩ := bind_eq_ok.mp h
  obtain ⟨s2, h2, h3⟩ := bind_eq_ok.mp h
  exact ((colorAdjacent_names h1 hc).trans (visitBranch_names h2)).trans (visitMemory_names h3)

end Enqueue

/-! ## The history -/

/-- The names and the history of a run that starts in `p`, when its next state is `s`. -/
structure FirstVisits (reg : Registry) (p : PropState) (hist : List Enqueuing) (s : PropState) :
    Prop where
  flag : ∀ w, s.flag w = true ↔ ∃ e ∈ hist, e.target = w
  once : (hist.map Enqueuing.target).Nodup
  target : ∀ e ∈ hist, e.target ∈ follows p.pdg e.source ∧ e.target ∈ reg.nodes ∧
    e.target.inst = some e.inst
  colored : ∀ w, s.coloredInstSet w = true → w ∈ p.queue ∨ s.flag w = true
  untouched : ∀ I, (∀ e ∈ hist, e.inst ≠ I) → s.taintMap I = p.taintMap I
  before : ∀ e ∈ hist, e.before.taintMap e.inst = p.taintMap e.inst
  after : ∀ e ∈ hist, e.after.taintMap e.inst = s.taintMap e.inst
  names : ∀ e ∈ hist, e.before.coloredInstSet e.source = true → ∃ i, e.source.inst = some i ∧
    ((s.flag e.source = true ∧ namesOf s i ⊆ namesOf s e.inst) ∨
      (e.source ∈ p.queue ∧ namesOf p i ⊆ namesOf s e.inst))

section Run

variable {heap : Heap} {M : Module} {reg : Registry} {p s s' : PropState} {n : Nat}
  {hist : List Enqueuing} {W adj : InstructionWrapper} {I : InstId}

/-- Dequeuing changes no names. -/
theorem FirstVisits.prepared {queue : List InstructionWrapper} {s0 : PropState}
    (h : FirstVisits reg p hist s) (hW : W ∈ p.queue ∨ s.flag W = true)
    (hs : Prepared M W { s with queue := queue } s0) : FirstVisits reg p hist s0 := by
  have hnames : ∀ I, namesOf s0 I = namesOf s I := fun I => by rw [namesOf, namesOf, hs.taintMap]
  refine ⟨fun w => ?_, h.once, h.target, fun w hw => ?_, fun I hI => ?_, h.before, fun e he => ?_,
    fun e he hc => ?_⟩
  · rw [hs.flag]
    exact h.flag w
  · rw [hs.flag]
    rcases (hs.colored w).mp hw with hw | ⟨rfl, _⟩
    · exact h.colored w hw
    · exact hW
  · rw [hs.taintMap]
    exact h.untouched I hI
  · rw [hs.taintMap]
    exact h.after e he
  · simp only [hnames, hs.flag]
    exact h.names e he hc

/-- An instruction that is enqueued was not enqueued before. -/
theorem FirstVisits.fresh (hinv : reg.Inv heap M) (h : FirstVisits reg p hist s)
    (hn : adj ∈ reg.nodes) (hi : adj.inst = some I) (hflag : s.flag adj = false) :
    ∀ e ∈ hist, e.inst ≠ I := by
  rintro e he rfl
  obtain ⟨_, hen, hei⟩ := h.target e he
  have hw : e.target = adj := Rep.inst_unique (rep_of_inst hinv hen hei) (rep_of_inst hinv hn hi)
  rw [(h.flag adj).mpr ⟨e, he, hw⟩] at hflag
  cases hflag

/-- An enqueuing from `W` keeps the facts about the names, if `W` was reached before and passes on
the names it has, or is a seed and passes on those it had at the start. -/
theorem FirstVisits.step (hinv : reg.Inv heap M) (h : FirstVisits reg p hist s)
    {taints : Finset String} (hWn : W ∈ reg.nodes)
    (htaint : ∀ i, W.inst = some i → (s.flag W = true ∧ taints = namesOf s i) ∨
      (W ∈ p.queue ∧ taints = namesOf p i))
    (hadj : adj ∈ follows p.pdg W) (hn : adj ∈ reg.nodes) (hi : adj.inst = some I)
    (hflag : s.flag adj = false) (he : enqueue M W taints adj I s = .ok s') :
    FirstVisits reg p (hist ++ [⟨W, adj, I, s, s'⟩]) s' := by
  have henq := enqueue_ok he
  have hfresh := h.fresh hinv hn hi hflag
  have hold : ∀ j, j ≠ I → s'.taintMap j = s.taintMap j := henq.taint_ne
  -- the instruction of a flagged wrapper is not the one enqueued
  have hne : ∀ w i, s.flag w = true → w.inst = some i → w ∈ reg.nodes → i ≠ I := by
    rintro w i hw hwi hwn rfl
    have : w = adj := Rep.inst_unique (rep_of_inst hinv hwn hwi) (rep_of_inst hinv hn hi)
    rw [this, hflag] at hw
    cases hw
  have hnames : ∀ j, j ≠ I → namesOf s' j = namesOf s j := fun j hj => by
    rw [namesOf, namesOf, hold j hj]
  refine ⟨fun w => ?_, ?_, ?_, fun w hw => ?_, fun J hJ => ?_, ?_, ?_, ?_⟩
  · rw [henq.flag_iff, h.flag]
    simp [or_and_right, exists_or, eq_comm]
  · rw [List.map_append, List.nodup_append]
    refine ⟨h.once, List.nodup_singleton _, fun w hw w' hw' hww => ?_⟩
    obtain ⟨e, hmem, rfl⟩ := List.mem_map.mp hw
    obtain rfl : w' = adj := by simpa using hw'
    rw [(h.flag w').mpr ⟨e, hmem, hww⟩] at hflag
    cases hflag
  · rw [List.forall_mem_append, List.forall_mem_singleton]
    exact ⟨h.target, hadj, hn, hi⟩
  · rw [henq.flag_iff]
    rw [henq.colored] at hw
    split at hw
    · rw [Function.update_apply] at hw
      split at hw
      · rename_i hwa
        exact .inr (.inr hwa)
      · exact (h.colored w hw).imp_right .inl
    · exact (h.colored w hw).imp_right .inl
  · rw [List.forall_mem_append, List.forall_mem_singleton] at hJ
    rw [hold J (Ne.symm hJ.2)]
    exact h.untouched J hJ.1
  · rw [List.forall_mem_append, List.forall_mem_singleton]
    exact ⟨h.before, h.untouched I hfresh⟩
  · rw [List.forall_mem_append, List.forall_mem_singleton]
    refine ⟨fun e hmem => ?_, rfl⟩
    rw [hold _ (hfresh e hmem)]
    exact h.after e hmem
  · rw [List.forall_mem_append, List.forall_mem_singleton]
    constructor
    · intro e hmem hc
      obtain ⟨i, hsi, hcase⟩ := h.names e hmem hc
      refine ⟨i, hsi, ?_⟩
      rw [hnames _ (hfresh e hmem)]
      refine hcase.imp (fun hf => ?_) fun hq => hq
      obtain ⟨e', hmem', hsrc⟩ := (h.flag _).mp hf.1
      rw [hnames i (hne _ i hf.1 hsi (hsrc ▸ (h.target e' hmem').2.1))]
      exact ⟨henq.flag_iff.mpr (.inl hf.1), hf.2⟩
    · intro hc
      obtain ⟨i, hWi⟩ := henq.source hc
      have hsub := enqueue_names he hc
      refine ⟨i, hWi, (htaint i hWi).imp (fun hf => ?_) fun hq => ?_⟩
      · rw [hnames i (hne W i hf.1 hWi hWn), ← hf.2]
        exact ⟨henq.flag_iff.mpr (.inl hf.1), hsub⟩
      · rw [← hq.2]
        exact ⟨hq.1, hsub⟩

/-- The facts about the names in every state of a run. -/
theorem firstVisits (hinv : reg.Inv heap M) (hp : Startable p)
    (hseeds : ∀ w ∈ p.queue, w ∈ reg.nodes) (h : propagate M reg n p = .ok s) :
    FirstVisits reg p (trace M reg n p) s := by
  have h0 : FirstVisits reg p [] p :=
    ⟨by simp [hp.flag], .nil, by simp, by simp [hp.colored], fun _ _ => rfl, by simp, by simp,
      by simp⟩
  refine trace_iterations h0 (fun hist k s s' W queue hk hq hd hP => ?_) h
  have hr := running hp hk
  have hWn : W ∈ reg.nodes := Dequeues.mem_nodes hp hseeds ⟨s, queue, hk, hq⟩
  have hW := hr.seed_or_flag hq
  have hfollows : follows ({ s with queue := queue } : PropState).pdg = follows p.pdg :=
    follows_congr hr.linksFrom
  -- the names of `W` in the iteration are those it had when it was dequeued
  have htaints : ∀ i, W.inst = some i →
      taintValuesOn W { s with queue := queue } = namesOf s i := fun i hi => by
    simp [taintValuesOn, namesOf, hi]
  refine (dequeueTrace_induction (P := fun new s1 => FirstVisits reg p (hist ++ new) s1 ∧
    (∀ w, s.flag w = true → s1.flag w = true) ∧
    (∀ i, W.inst = some i → s.flag W = true → namesOf s1 i = namesOf s i)) hd ?_ ?_).1
  · intro s0 hs
    rw [List.append_nil]
    refine ⟨hP.prepared hW hs, fun w hw => by rw [hs.flag]; exact hw, fun i _ _ => ?_⟩
    rw [namesOf, namesOf, hs.taintMap]
  · intro new s1 s2 adj I hadj hn hi hflag he hx
    obtain ⟨h1, hmono, hsame⟩ := hx
    rw [hfollows] at hadj
    have henq := enqueue_ok he
    refine ⟨?_, fun w hw => henq.flag_iff.mpr (.inl (hmono w hw)), fun i hWi hWf => ?_⟩
    · rw [← List.append_assoc]
      refine h1.step hinv hWn (fun i hWi => ?_) hadj hn hi hflag he
      rw [htaints i hWi]
      cases hWf : s.flag W with
      | true => exact .inl ⟨hmono W hWf, (hsame i hWi hWf).symm⟩
      | false =>
        refine .inr ⟨hW.resolve_right (by simp [hWf]), ?_⟩
        rw [namesOf, namesOf, hP.untouched i (hP.fresh hinv hWn hWi hWf)]
    · have hne : i ≠ I := by
        rintro rfl
        have : W = adj := Rep.inst_unique (rep_of_inst hinv hWn hWi) (rep_of_inst hinv hn hi)
        rw [← this, hmono W hWf] at hflag
        cases hflag
      rw [← hsame i hWi hWf, namesOf, namesOf, henq.taint_ne i hne]

/-- In a completed run, every wrapper that a coloured one is linked to is reached. It is enqueued
once; the names of its instruction change at that moment only, and contain those of the wrapper it
is enqueued from, if that is coloured: the final names of a wrapper that is no seed, the final or
the initial names of a seed. -/
theorem first_visit_names (hinv : reg.Inv heap M) (hp : Startable p)
    (hseeds : ∀ w ∈ p.queue, w ∈ reg.nodes) (h : propagate M reg n p = .ok s)
    (hdone : s.queue = []) :
    (∀ u v, s.coloredInstSet u = true → v ∈ follows p.pdg u →
      ∃ e ∈ trace M reg n p, e.target = v) ∧
    ((trace M reg n p).map Enqueuing.target).Nodup ∧
    ∀ e ∈ trace M reg n p, e.target ∈ follows p.pdg e.source ∧ e.target.inst = some e.inst ∧
      e.before.taintMap e.inst = p.taintMap e.inst ∧ e.after.taintMap e.inst = s.taintMap e.inst ∧
      (e.before.coloredInstSet e.source = true → ∃ i, e.source.inst = some i ∧
        (e.source ∉ p.queue → namesOf s i ⊆ namesOf s e.inst) ∧
        (namesOf s i ⊆ namesOf s e.inst ∨ namesOf p i ⊆ namesOf s e.inst)) := by
  have hf := firstVisits hinv hp hseeds h
  have hr := running hp h
  refine ⟨fun u v hu hv => (hf.flag v).mp ?_, hf.once, fun e he => ?_⟩
  · refine (hr.search.marked_iff hdone).mpr ?_
    rcases hf.colored u hu with hq | hflag
    · exact ⟨u, hq, .single hv⟩
    · obtain ⟨x, hx, hxu⟩ := (hr.search.marked_iff hdone).mp hflag
      exact ⟨x, hx, hxu.tail hv⟩
  · obtain ⟨hfol, _, hi⟩ := hf.target e he
    refine ⟨hfol, hi, hf.before e he, hf.after e he, fun hc => ?_⟩
    obtain ⟨i, hsi, hcase⟩ := hf.names e he hc
    refine ⟨i, hsi, fun hnot => ?_, hcase.imp And.right And.right⟩
    rcases hcase with hcase | hcase
    · exact hcase.2
    · exact absurd hcase.1 hnot

end Run

open TwoSources in
/-- The sum of two annotated variables carries the name of one of them. -/
theorem sum_carries_one_name : ∃ x s, start M .fresh (built M env) = .ok x ∧
    propagate M (built M env).reg (iterations (built M env).reg x.1) x.1 = .ok s ∧
    s.queue = [] ∧ ∃ u ∈ (built M env).reg.nodes, ∃ v ∈ (built M env).reg.nodes,
      u.inst = some 8 ∧ v.inst = some 9 ∧ v ∈ follows x.1.pdg u ∧ s.coloredInstSet u = true ∧
      ¬ namesOf s 8 ⊆ namesOf s 9 := by
  obtain ⟨x, hx, h⟩ := exists_ok (x := start M .fresh (built M env)) (P := fun x =>
    (propagate M (built M env).reg (iterations (built M env).reg x.1) x.1).toOption.any fun s =>
      s.queue = [] ∧ ((built M env).reg.nodes.any fun u => (built M env).reg.nodes.any fun v =>
        u.inst = some 8 ∧ v.inst = some 9 ∧ v ∈ follows x.1.pdg u ∧ s.coloredInstSet u = true) ∧
      ¬ namesOf s 8 ⊆ namesOf s 9) (by decide +kernel)
  obtain ⟨s, hs, h⟩ := exists_ok h
  rw [decide_eq_true_eq, List.any_eq_true] at h
  obtain ⟨hq, ⟨u, hu, huv⟩, hno⟩ := h
  obtain ⟨v, hv, huv⟩ := List.any_eq_true.mp huv
  rw [decide_eq_true_eq] at huv
  obtain ⟨hui, hvi, hfol, hcol⟩ := huv
  exact ⟨x, s, hx, hs, hq, u, hu, v, hv, hui, hvi, hfol, hcol, hno⟩

open TwoSources in
/-- The sum is first reached from the load of `a`, and carries its names. -/
theorem first_visit_names_sum : ∃ x s, start M .fresh (built M env) = .ok x ∧
    propagate M (built M env).reg (iterations (built M env).reg x.1) x.1 = .ok s ∧
    s.queue = [] ∧ (namesOf s 7 ⊆ namesOf s 9 ∨ namesOf x.1 7 ⊆ namesOf s 9) := by
  have hb := built_spec M env
  obtain ⟨x, hx, h⟩ := exists_ok (x := start M .fresh (built M env)) (P := fun x =>
    (propagate M (built M env).reg (iterations (built M env).reg x.1) x.1).toOption.any fun s =>
      s.queue = [] ∧ (trace M (built M env).reg (iterations (built M env).reg x.1) x.1).any
        fun e => e.inst = 9 ∧ e.source.inst = some 7 ∧ e.before.coloredInstSet e.source = true)
    (by decide +kernel)
  obtain ⟨s, hs, h⟩ := exists_ok h
  rw [decide_eq_true_eq, List.any_eq_true] at h
  obtain ⟨hq, e, he, hcase⟩ := h
  rw [decide_eq_true_eq] at hcase
  have hst := start_spec hb hx
  obtain ⟨_, _, hall⟩ := first_visit_names hb.graphs.inv hst.startable hst.queue_mem hs hq
  obtain ⟨_, _, _, _, hnames⟩ := hall e he
  obtain ⟨i, hi, _, hcases⟩ := hnames hcase.2.2
  rw [hcase.2.1] at hi
  cases hi
  rw [hcase.1] at hcases
  exact ⟨x, s, hx, hs, hq, hcases⟩

end PDG
end DepTaint
