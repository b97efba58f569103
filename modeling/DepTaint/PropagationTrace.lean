import DepTaint.PropagationRun

/-!
# PropagationTrace

The history of a run of the worklist loop: every time a wrapper is enqueued, with the states before
and after it.

* `trace`: the enqueuings of the first iterations, in order.
* `trace_induction`: what holds at the start with an empty history, and is kept when an enqueuing
  is added, holds in every state of a run.
-/

namespace DepTaint
namespace PDG

/-- `target`, the wrapper of `inst`, is enqueued while the links of `source` are visited. -/
structure Enqueuing where
  source : InstructionWrapper
  target : InstructionWrapper
  inst : InstId
  before : PropState
  after : PropState

section Trace

variable (M : Module) (reg : Registry)

/-- What one link adds to the history, when it takes `s` to `s'`. -/
def linkTrace (W : InstructionWrapper) (link : WrapperPtr × Int) (s s' : PropState) :
    List Enqueuing :=
  match follow link with
  | some adj =>
    if s.flag adj then [] else adj.inst.toList.map fun I => ⟨W, adj, I, s, s'⟩
  | none => []

def linksTrace (W : InstructionWrapper) (taints : Finset String) :
    List (WrapperPtr × Int) → PropState → List Enqueuing
  | [], _ => []
  | link :: links, s =>
    match visitLink M reg W taints s link with
    | .ok s' => linkTrace W link s s' ++ linksTrace W taints links s'
    | .error _ => []

/-- What the iteration that dequeues `W` adds to the history. -/
def dequeueTrace (s : PropState) (W : InstructionWrapper) : List Enqueuing :=
  match prepare M W s with
  | .ok s0 => linksTrace M reg W (taintValuesOn W s) (s.pdg.linksFrom (.to W)) s0
  | .error _ => []

/-- The enqueuings of the first `n` iterations. -/
def trace : Nat → PropState → List Enqueuing
  | 0, _ => []
  | n + 1, s =>
    match s.queue, iterate M reg s with
    | InstW :: queue, .ok s' =>
      dequeueTrace M reg { s with queue := queue } InstW ++ trace n s'
    | _, _ => []

end Trace

section Rules

variable {M : Module} {reg : Registry} {W : InstructionWrapper} {p s s' : PropState} {n : Nat}

/-- A link of a dequeued wrapper is skipped, or its enqueuing is added to the history. -/
theorem visitLink_trace {taints : Finset String} {link : WrapperPtr × Int}
    (h : visitLink M reg W taints s link = .ok s') :
    (linkTrace W link s s' = [] ∧ s' = s) ∨ ∃ adj I, follow link = some adj ∧ adj ∈ reg.nodes ∧
      adj.inst = some I ∧ s.flag adj = false ∧ linkTrace W link s s' = [⟨W, adj, I, s, s'⟩] ∧
      enqueue M W taints adj I s = .ok s' := by
  rcases visitLink_ok h with ⟨hf, rfl⟩ | ⟨adj, I, hf, hn, hi, ⟨hflag, rfl⟩ | ⟨hflag, _⟩⟩
  · exact .inl ⟨by simp [linkTrace, hf], rfl⟩
  · exact .inl ⟨by simp [linkTrace, hf, hflag], rfl⟩
  · refine .inr ⟨adj, I, hf, hn, hi, hflag, by simp [linkTrace, hf, hflag, hi], ?_⟩
    unfold follow at hf
    unfold visitLink at h
    split at hf
    · cases hf
    · rename_i ht
      rw [if_neg ht] at h
      split at hf
      · rename_i w hw
        cases hf
        simpa [hw, findNode, hn, getInst, hi, hflag, bind, Except.bind] using h
      · cases hf

/-- The rule for the history of one iteration. -/
theorem dequeueTrace_induction {P : List Enqueuing → PropState → Prop}
    (h : dequeue M reg s W = .ok s') (h0 : ∀ s0, Prepared M W s s0 → P [] s0)
    (hstep : ∀ hist s1 s2 adj I, adj ∈ follows s.pdg W → adj ∈ reg.nodes → adj.inst = some I →
      s1.flag adj = false → enqueue M W (taintValuesOn W s) adj I s1 = .ok s2 → P hist s1 →
      P (hist ++ [⟨W, adj, I, s1, s2⟩]) s2) : P (dequeueTrace M reg s W) s' := by
  obtain ⟨s0, hprep, hp, hfold⟩ := dequeue_ok h
  rw [dequeueTrace, hprep]
  dsimp only
  suffices hgen : ∀ links hist s1, (∀ link ∈ links, link ∈ s.pdg.linksFrom (.to W)) → P hist s1 →
      links.foldlM (visitLink M reg W (taintValuesOn W s)) s1 = .ok s' →
      P (hist ++ linksTrace M reg W (taintValuesOn W s) links s1) s' from by
    simpa using hgen _ [] s0 (fun _ h => h) (h0 s0 hp) hfold
  intro links
  induction links with
  | nil =>
    intro hist s1 _ hP hf
    cases hf
    simpa [linksTrace] using hP
  | cons link links ih =>
    intro hist s1 hsub hP hf
    rw [List.foldlM_cons] at hf
    obtain ⟨s2, hv, hrest⟩ := bind_eq_ok.mp hf
    have hsub' : ∀ l ∈ links, l ∈ s.pdg.linksFrom (.to W) := fun l hl =>
      hsub l (List.mem_cons_of_mem _ hl)
    rw [linksTrace, hv]
    dsimp only
    rw [← List.append_assoc]
    rcases visitLink_trace hv with ⟨ht, rfl⟩ | ⟨adj, I, hfol, hn, hi, hflag, ht, he⟩
    · rw [ht, List.append_nil]
      exact ih hist s2 hsub' hP hrest
    · rw [ht]
      refine ih _ s2 hsub' (hstep hist s1 s2 adj I ?_ hn hi hflag he hP) hrest
      exact List.mem_filterMap.mpr ⟨link, hsub link (List.mem_cons_self ..), hfol⟩

/-- The rule for the history of a run, one iteration at a time. -/
theorem trace_iterations {P : List Enqueuing → PropState → Prop} (h0 : P [] p)
    (hstep : ∀ hist k s s' W queue, propagate M reg k p = .ok s → s.queue = W :: queue →
      dequeue M reg { s with queue := queue } W = .ok s' → P hist s →
      P (hist ++ dequeueTrace M reg { s with queue := queue } W) s')
    (h : propagate M reg n p = .ok s) : P (trace M reg n p) s := by
  suffices hgen : ∀ n hist k s1, propagate M reg k p = .ok s1 → P hist s1 →
      propagate M reg n s1 = .ok s → P (hist ++ trace M reg n s1) s from by
    simpa using hgen n [] 0 p rfl h0 h
  intro n
  induction n with
  | zero =>
    intro hist k s1 _ hP h
    cases h
    simpa [trace] using hP
  | succ n ih =>
    intro hist k s1 hk hP h
    obtain ⟨s2, h1, h2⟩ := iterM_succ_eq_ok.mp h
    have hk2 := propagate_succ hk h1
    rcases iterate_ok h1 with ⟨hq, rfl⟩ | ⟨W, queue, hq, hd⟩
    · have ht : trace M reg (n + 1) s2 = trace M reg n s2 := by
        cases n <;> simp [trace, hq]
      rw [ht]
      exact ih hist (k + 1) s2 hk2 hP h2
    · have := ih _ (k + 1) s2 hk2 (hstep hist k s1 s2 W queue hk hq hd hP) h2
      simpa [trace, hq, h1] using this

/-- The rule for the history of a run. -/
theorem trace_induction {P : List Enqueuing → PropState → Prop} (h0 : P [] p)
    (hprep : ∀ hist s s0 W queue, Prepared M W { s with queue := queue } s0 → P hist s → P hist s0)
    (hstep : ∀ hist s1 s2 W adj I, adj ∈ reg.nodes → adj.inst = some I → s1.flag adj = false →
      Enqueued M W adj I s1 s2 → P hist s1 → P (hist ++ [⟨W, adj, I, s1, s2⟩]) s2)
    (h : propagate M reg n p = .ok s) : P (trace M reg n p) s := by
  refine trace_iterations h0 (fun hist k s s' W queue _ _ hd hP => ?_) h
  refine dequeueTrace_induction (P := fun new s1 => P (hist ++ new) s1) hd
    (fun s0 hs => ?_) fun new s1 s2 adj I _ hn hi hflag he hP => ?_
  · rw [List.append_nil]
    exact hprep hist s s0 W queue hs hP
  · rw [← List.append_assoc]
    exact hstep _ s1 s2 W adj I hn hi hflag (enqueue_ok he) hP

end Rules

end PDG
end DepTaint
