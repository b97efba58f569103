import DepTaint.Dependences
import DepTaint.PropagationStep

/-!
# PropagationRun

Whole runs of the worklist loop over an arbitrary graph.

* `dequeue_error`: the one fault left for an iteration on a well-formed graph.
* `run_induction`: what holds at the start and is kept by every visit holds in every state of a run.
* `ReachesPlus`: the wrappers the links lead to from the seeds.
* `propagate_exact`: the loop ends, flags exactly the wrappers reachable in one or more followed
  links, and colours the seeds and the flagged wrappers.
-/

namespace DepTaint
namespace PDG

section Fault

variable {M : Module} {reg : Registry} {W : InstructionWrapper} {s : PropState} {e : Fault}

theorem setVisited_isOk
    (hfunc : W.type = .inst → ∃ F, W.func = some F ∧ (s.funcMap F).isSome) :
    ∃ s', setVisited W s = .ok s' := by
  unfold setVisited
  split
  · rename_i ht
    obtain ⟨F, hF, hm⟩ := hfunc ht
    obtain ⟨fw, hfw⟩ := Option.isSome_iff_exists.mp hm
    rw [hF]
    simp only [FuncMap.get_of_some hfw]
    exact ⟨_, rfl⟩
  · exact ⟨s, rfl⟩

/-- The first loop only looks at flagged wrappers. -/
theorem findLoopBranch_isOk {links : List (WrapperPtr × Int)} {flag : InstructionWrapper → Bool}
    (hfit : ∀ link ∈ links, ∃ o, findNode reg link.1 = .ok o)
    (hflag : ∀ w, flag w = true → ∃ I, w.inst = some I) :
    ∃ b, links.foldlM (findLoopBranch M reg flag W) false = .ok b := by
  obtain ⟨b, hb, _⟩ := foldlM_invariant (f := findLoopBranch M reg flag W) (l := links)
    (s := false) (P := fun _ _ => True) trivial (by
      intro pre link post acc hx _
      obtain ⟨o, ho⟩ := hfit link (by simp [hx])
      unfold findLoopBranch
      rw [ho]
      cases o with
      | none => exact ⟨acc, rfl, trivial⟩
      | some w =>
        by_cases hw : flag w = true
        · obtain ⟨I, hI⟩ := hflag w hw
          simp only [bind, Except.bind, hw, if_true, getInst, hI]
          split
          · exact ⟨_, rfl, trivial⟩
          · exact ⟨_, rfl, trivial⟩
        · simp only [bind, Except.bind, hw]
          exact ⟨acc, rfl, trivial⟩)
  exact ⟨b, hb⟩

/-- A link that is fit to be followed only faults for want of a `taintMap` entry. -/
theorem visitLink_error {taints : Finset String} {link : WrapperPtr × Int}
    (hfit : ∃ o, findNode reg link.1 = .ok o)
    (hadj : ∀ adj, follow link = some adj → (s.flag adj = false → ∃ i, W.inst = some i) ∧
      ∃ I, adj.inst = some I ∧ (s.funcMap (M.parent I)).isSome)
    (h : visitLink M reg W taints s link = .error e) :
    e = .missingTaint ∧ s.coloredInstSet W = false := by
  unfold visitLink at h
  split at h
  · cases h
  · rename_i hcall
    obtain ⟨o, ho⟩ := hfit
    rw [ho] at h
    cases o with
    | none => cases h
    | some adj =>
      have hfollow : follow link = some adj := by
        rcases findNode_eq_ok.mp ho with ⟨_, hn⟩ | ⟨w, hw, _, hn⟩
        · cases hn
        · cases hn
          simp [follow, hcall, hw]
      obtain ⟨hW, I, hI, hm⟩ := hadj adj hfollow
      simp only [bind, Except.bind, getInst, hI] at h
      split at h
      · cases h
      · rename_i hnf
        obtain ⟨i, hi⟩ := hW (by simpa using hnf)
        exact enqueue_error hi hm h

/-- Over links to registered wrappers with instructions, and from a wrapper that carries one itself
if it flags any of them, an iteration only faults for want of a `taintMap` entry, and only if the
wrapper is not coloured. -/
theorem dequeue_error
    (hfunc : W.type = .inst → ∃ F, W.func = some F ∧ (s.funcMap F).isSome)
    (hlinks : ∀ p t, s.pdg.HasLink (.to W) p t → p = .null ∨ ∃ w ∈ reg.nodes, p = .to w)
    (hflag : ∀ w, s.flag w = true → ∃ I, w.inst = some I)
    (hadj : ∀ adj ∈ follows s.pdg W, (s.flag adj = false → ∃ i, W.inst = some i) ∧
      ∃ I, adj.inst = some I ∧ (s.funcMap (M.parent I)).isSome)
    (h : dequeue M reg s W = .error e) :
    e = .missingTaint ∧ s.coloredInstSet W = false ∧ colors M W = false := by
  have hfit : ∀ link ∈ s.pdg.linksFrom (.to W), ∃ o, findNode reg link.1 = .ok o := by
    rintro ⟨p, t⟩ hl
    rcases hlinks p t hl with rfl | ⟨w, hw, rfl⟩
    · exact ⟨none, rfl⟩
    · exact ⟨some w, by simp [findNode, hw]⟩
  unfold dequeue at h
  obtain ⟨s1, h1⟩ := setVisited_isOk hfunc
  obtain ⟨hq, hf, ht, hc, hp, hs, hr⟩ := setVisited_ok h1
  simp only [h1, bind, Except.bind, colorSelf_eq, DependencyGraph.linksFrom_getNodeByData, hp,
    hf] at h
  obtain ⟨b, hb⟩ := findLoopBranch_isOk (M := M) (W := W) hfit hflag
  rw [hb] at h
  dsimp only at h
  -- the state in which the link at fault is visited
  obtain ⟨s2, link, hl, ⟨hsome, hmono, hcol⟩, he⟩ := foldlM_eq_error h
    (P := fun s2 : PropState => (∀ f, (s2.funcMap f).isSome = (s.funcMap f).isSome) ∧
      (∀ w, s2.flag w = false → s.flag w = false) ∧
      (s.coloredInstSet W = true ∨ colors M W = true → s2.coloredInstSet W = true))
    ⟨hs, by simp, by
      rintro (h | h)
      · dsimp only
        split
        · exact Function.update_self ..
        · rw [hc, h]
      · simp [h]⟩ (by
      intro s2 link s3 _ hv hP
      rcases visitLink_ok hv with ⟨_, rfl⟩ | ⟨adj, I, _, _, _, ⟨_, rfl⟩ | ⟨_, he⟩⟩
      · exact hP
      · exact hP
      · refine ⟨fun f => (he.func_isSome f).trans (hP.1 f), fun w hw => hP.2.1 w ?_, fun h =>
          he.colored_mono (hP.2.2 h)⟩
        rw [← Bool.not_eq_true] at hw ⊢
        exact fun hs => hw (he.flag_iff.mpr (.inl hs)))
  obtain ⟨hmiss, hnc⟩ := visitLink_error (hfit link hl) (fun adj hfollow => by
    obtain ⟨hW, I, hI, hm⟩ := hadj adj (List.mem_filterMap.mpr ⟨link, hl, hfollow⟩)
    exact ⟨fun hnf => hW (hmono adj hnf), I, hI, by rw [hsome]; exact hm⟩) he
  refine ⟨hmiss, ?_⟩
  rw [← Bool.not_eq_true, ← Bool.not_eq_true, ← not_or]
  intro h
  rw [hcol h] at hnc
  cases hnc

end Fault

/-! ## Reachability -/

/-- One followed link leads from `x` to `y`. -/
abbrev Follows (pdg : DependencyGraph WrapperPtr) : InstructionWrapper → InstructionWrapper → Prop :=
  Worklist.Succ (follows pdg)

/-- One or more followed links lead from a seed to `w`. -/
def ReachesPlus (pdg : DependencyGraph WrapperPtr) (seeds : List InstructionWrapper)
    (w : InstructionWrapper) : Prop :=
  ∃ x ∈ seeds, Relation.TransGen (Follows pdg) x w

/-- The wrappers the first `n` iterations dequeue. -/
def dequeued (M : Module) (reg : Registry) : Nat → PropState → List InstructionWrapper
  | 0, _ => []
  | n + 1, s =>
    match s.queue, iterate M reg s with
    | InstW :: _, .ok s' => InstW :: dequeued M reg n s'
    | _, _ => []

section Run

variable {heap : Heap} {M : Module} {reg : Registry} {p s s' : PropState} {n : Nat}

/-! ## The invariant of a run -/

/-- Every seed gets coloured: none is a call node. -/
def SeedsColored (M : Module) (p : PropState) : Prop := ∀ w ∈ p.queue, colors M w = true

/-- What holds once the wrappers in `done` are dequeued, in a run that starts in `p`. -/
structure Running (M : Module) (p : PropState) (done : List InstructionWrapper) (s : PropState) :
    Prop where
  search : Worklist.Inv (follows p.pdg) p.queue done (view s)
  linksFrom : ∀ q, s.pdg.linksFrom q = p.pdg.linksFrom q
  func_isSome : ∀ f, (s.funcMap f).isSome = (p.funcMap f).isSome
  colored : SeedsColored M p →
    ∀ w, s.coloredInstSet w = true ↔ (w ∈ p.queue ∧ w ∈ done) ∨ s.flag w = true

/-- A run starts with no wrapper flagged or coloured. -/
structure Startable (p : PropState) : Prop where
  flag : ∀ w, p.flag w = false
  colored : ∀ w, p.coloredInstSet w = false

variable {done queue : List InstructionWrapper} {W : InstructionWrapper}

theorem Startable.running (h : Startable p) : Running M p [] p :=
  ⟨Worklist.inv_start (s := view p) h.flag, fun _ => rfl, fun _ => rfl, by simp [h.colored, h.flag]⟩

theorem Running.seed_or_flag (hr : Running M p done s) (hq : s.queue = W :: queue) :
    W ∈ p.queue ∨ s.flag W = true :=
  hr.search.seed_or_marked (.inr (by simp [view, hq]))

/-- The dequeued wrapper is coloured when its links are visited. -/
theorem Running.colored_front (hp : SeedsColored M p) (hr : Running M p done s)
    (hq : s.queue = W :: queue) : s.coloredInstSet W = true ∨ colors M W = true := by
  rcases hr.seed_or_flag hq with hw | hw
  · exact .inr (hp W hw)
  · exact .inl ((hr.colored hp W).mpr (.inr hw))

/-- One iteration that does not fault keeps the invariant. -/
theorem Running.next (hr : Running M p done s) (hq : s.queue = W :: queue)
    (h : iterate M reg s = .ok s') : Running M p (done ++ [W]) s' := by
  obtain ⟨hview, hlinks⟩ := view_iterate h
  have hd : dequeue M reg { s with queue := queue } W = .ok s' := by
    unfold iterate at h
    rwa [hq] at h
  refine ⟨?_, fun q => (hlinks q).trans (hr.linksFrom q), ?_, fun hp => ?_⟩
  · rw [hview, follows_congr hr.linksFrom]
    exact hr.search.next (show (view s).queue = W :: queue by simp [view, hq])
  · refine dequeue_induction (P := fun s1 : PropState => ∀ f, (s1.funcMap f).isSome =
      (p.funcMap f).isSome) hd (fun s1 hs f => (hs.func_isSome f).trans (hr.func_isSome f)) ?_
    intro s1 s2 adj I _ _ _ _ he h1 f
    exact (he.func_isSome f).trans (h1 f)
  · have hcolW := hr.colored_front hp hq
    refine (dequeue_induction (P := fun s1 : PropState => (∀ w, s1.coloredInstSet w = true ↔
      (w ∈ p.queue ∧ w ∈ done ++ [W]) ∨ s1.flag w = true) ∧ s1.coloredInstSet W = true) hd
      (fun s1 hs => ?_) ?_).1
    · refine ⟨fun w => ?_, (hs.colored W).mpr (hcolW.imp_right fun hc => ⟨rfl, hc⟩)⟩
      rw [hs.colored, hs.flag]
      simp only [hr.colored hp, List.mem_append, List.mem_singleton]
      constructor
      · rintro ((⟨hw, hd⟩ | hf) | ⟨rfl, hc⟩)
        · exact .inl ⟨hw, .inl hd⟩
        · exact .inr hf
        · exact (hr.seed_or_flag hq).imp_left fun hw => ⟨hw, .inr rfl⟩
      · rintro (⟨hw, hd | rfl⟩ | hf)
        · exact .inl (.inl ⟨hw, hd⟩)
        · exact .inr ⟨rfl, hp w hw⟩
        · exact .inl (.inr hf)
    · rintro s1 s2 adj I _ _ _ _ he ⟨h1, h2⟩
      refine ⟨fun w => ?_, he.colored_mono h2⟩
      rw [he.flag_iff, he.colored, if_pos h2]
      by_cases hw : w = adj
      · simp [hw]
      · simp only [Function.update_of_ne hw, h1, hw, or_false]

/-- Iteration `k` of the run from `p` dequeues `W`. -/
def Dequeues (M : Module) (reg : Registry) (p : PropState) (k : Nat) (W : InstructionWrapper) :
    Prop :=
  ∃ s queue, propagate M reg k p = .ok s ∧ s.queue = W :: queue

/-- The run from `p` enqueues `adj`, the wrapper of `I`, from `W`. The wrapper `W` is a seed or
flagged, and, if it is no seed, everything the seeds lead to is flagged before. -/
structure Visit (M : Module) (reg : Registry) (p s : PropState) (W adj : InstructionWrapper)
    (I : InstId) : Prop where
  dequeues : ∃ k, Dequeues M reg p k W
  seed_or_flag : W ∈ p.queue ∨ s.flag W = true
  seeds_first : W ∉ p.queue → ∀ x ∈ p.queue, ∀ y ∈ follows p.pdg x, s.flag y = true
  colored : SeedsColored M p ∨ colors M W = true → s.coloredInstSet W = true
  follows : adj ∈ PDG.follows p.pdg W
  mem_nodes : adj ∈ reg.nodes
  inst : adj.inst = some I
  fresh : s.flag adj = false

theorem propagate_succ {k : Nat} (h : propagate M reg k p = .ok s)
    (h1 : iterate M reg s = .ok s') : propagate M reg (k + 1) p = .ok s' :=
  iterM_add_eq_ok.mpr ⟨s, h, iterM_succ_eq_ok.mpr ⟨s', h1, rfl⟩⟩

/-- The rule for one iteration of a run, which dequeues `W`. -/
theorem visit_induction {P : PropState → Prop} {k : Nat} (hk : propagate M reg k p = .ok s)
    (hr : Running M p done s) (hq : s.queue = W :: queue) (h : iterate M reg s = .ok s')
    (hprep : ∀ s0, Prepared M W { s with queue := queue } s0 → P s0)
    (henq : ∀ s1 s2 adj I, Visit M reg p s1 W adj I → (∀ w, s.flag w = true → s1.flag w = true) →
      Enqueued M W adj I s1 s2 → P s1 → P s2) : P s' := by
  have hd : dequeue M reg { s with queue := queue } W = .ok s' := by
    unfold iterate at h
    rwa [hq] at h
  refine (dequeue_induction (P := fun s1 : PropState => P s1 ∧
    (SeedsColored M p ∨ colors M W = true → s1.coloredInstSet W = true) ∧
    ∀ w, s.flag w = true → s1.flag w = true) hd
    (fun s0 hs => ⟨hprep s0 hs, fun hsc => ?_, fun w hw => ?_⟩) ?_).1
  · rw [hs.colored W]
    rcases hsc with hsc | hsc
    · exact (hr.colored_front hsc hq).imp_right fun hc => ⟨rfl, hc⟩
    · exact .inr ⟨rfl, hsc⟩
  · rw [hs.flag]
    exact hw
  · rintro s1 s2 adj I hadj hn hi hf he ⟨hP, hc, hm⟩
    rw [show follows ({ s with queue := queue } : PropState).pdg = follows p.pdg from
      follows_congr hr.linksFrom] at hadj
    have hvisit : Visit M reg p s1 W adj I :=
      { dequeues := ⟨k, s, queue, hk, hq⟩
        seed_or_flag := (hr.seed_or_flag hq).imp_right (hm W)
        seeds_first := fun hW x hx y hy => by
          have hdone := hr.search.seeds_done
            (show (view s).queue = W :: queue by simp [view, hq]) hW x hx
          exact hm y (hr.search.closed x hdone y hy)
        colored := hc
        follows := hadj
        mem_nodes := hn
        inst := hi
        fresh := hf }
    exact ⟨henq s1 s2 adj I hvisit hm he hP, fun hsc => he.colored_mono (hc hsc), fun w hw =>
      he.flag_iff.mpr (.inl (hm w hw))⟩

/-- The run rule. `P` holds at the start, does not depend on what dequeuing changes, and is kept by
every visit that enqueues. -/
theorem run_induction {P : PropState → Prop} (hp : Startable p) (h0 : P p)
    (hprep : ∀ s s0 W queue, Prepared M W { s with queue := queue } s0 → P s → P s0)
    (henq : ∀ s1 s2 W adj I, Visit M reg p s1 W adj I → Enqueued M W adj I s1 s2 → P s1 → P s2)
    (h : propagate M reg n p = .ok s) : Running M p (dequeued M reg n p) s ∧ P s := by
  suffices hgen : ∀ n k s1 done, propagate M reg k p = .ok s1 → Running M p done s1 → P s1 →
      propagate M reg n s1 = .ok s → Running M p (done ++ dequeued M reg n s1) s ∧ P s from by
    simpa using hgen n 0 p [] rfl hp.running h0 h
  intro n
  induction n with
  | zero =>
    intro k s1 done _ hr hP h
    cases h
    exact ⟨by simpa [dequeued] using hr, hP⟩
  | succ n ih =>
    intro k s1 done hk hr hP h
    obtain ⟨s2, h1, h2⟩ := iterM_succ_eq_ok.mp h
    have hk2 := propagate_succ hk h1
    rcases iterate_ok h1 with ⟨hq, rfl⟩ | ⟨W, queue, hq, _⟩
    · have hd : dequeued M reg (n + 1) s2 = dequeued M reg n s2 := by
        cases n <;> simp [dequeued, hq]
      rw [hd]
      exact ih (k + 1) s2 done hk2 hr hP h2
    · have hP2 : P s2 := visit_induction hk hr hq h1 (fun s0 hs => hprep s1 s0 W queue hs hP)
        (fun s s' adj I hv _ => henq s s' W adj I hv)
      have := ih (k + 1) s2 (done ++ [W]) hk2 (hr.next hq h1) hP2 h2
      simpa [dequeued, hq, h1] using this

theorem running (hp : Startable p) (h : propagate M reg n p = .ok s) :
    Running M p (dequeued M reg n p) s :=
  (run_induction (P := fun _ => True) hp trivial (fun _ _ _ _ _ _ => trivial)
    (fun _ _ _ _ _ _ _ _ => trivial) h).1

/-- The run rule for what is flagged: it holds of every wrapper that is enqueued, if it holds of
those flagged before. -/
theorem flag_induction {Q : InstructionWrapper → Prop} (hp : Startable p)
    (henq : ∀ s1 s2 W adj I, Visit M reg p s1 W adj I → Enqueued M W adj I s1 s2 →
      (∀ w, s1.flag w = true → Q w) → Q adj)
    (h : propagate M reg n p = .ok s) : ∀ w, s.flag w = true → Q w := by
  refine (run_induction (P := fun s1 : PropState => ∀ w, s1.flag w = true → Q w) hp
    (by simp [hp.flag]) ?_ ?_ h).2
  · intro s1 s2 W queue hs hP w hw
    exact hP w (by rwa [← hs.flag])
  · intro s1 s2 W adj I hv he hP w hw
    rcases he.flag_iff.mp hw with hw | rfl
    · exact hP w hw
    · exact henq s1 s2 W w I hv he hP

/-- Everything that is dequeued is registered. -/
theorem Dequeues.mem_nodes {k : Nat} (hp : Startable p)
    (hq : ∀ w ∈ p.queue, w ∈ reg.nodes) (h : Dequeues M reg p k W) : W ∈ reg.nodes := by
  obtain ⟨s1, queue, hs1, hW⟩ := h
  have hflag := flag_induction (Q := (· ∈ reg.nodes)) hp
    (fun _ _ _ _ _ hv _ _ => hv.mem_nodes) hs1
  exact ((running hp hs1).seed_or_flag hW).elim (hq W) (hflag W)

/-! ## The end of a run -/

theorem propagate_nil (M : Module) (reg : Registry) (hq : s.queue = []) (n : Nat) :
    propagate M reg n s = .ok s := by
  unfold propagate
  induction n with
  | zero => rfl
  | succ n ih => exact iterM_succ_eq_ok.mpr ⟨s, by simp [iterate, hq], ih⟩

/-- A run without a fault has emptied its queue after enough iterations. -/
theorem queue_eq_nil (hnd : reg.nodes.Nodup) (h : propagate M reg n s = .ok s')
    (hn : Worklist.pending reg.nodes (view s) ≤ n) : s'.queue = [] := by
  induction n generalizing s with
  | zero =>
    cases h
    have hlen : s'.queue.length = 0 := by
      have hle := Nat.le_of_add_right_le hn
      exact Nat.le_zero.mp hle
    exact List.eq_nil_of_length_eq_zero hlen
  | succ n ih =>
    obtain ⟨s1, h1, h2⟩ := iterM_succ_eq_ok.mp h
    rcases iterate_ok h1 with ⟨hq, rfl⟩ | ⟨W, queue, hq, hd⟩
    · have h3 := propagate_nil M reg hq n
      rw [propagate, h2] at h3
      cases h3
      exact hq
    · refine ih h2 ?_
      rw [(view_iterate h1).1]
      have hfront : (view s).queue = W :: queue := by simp [view, hq]
      have hnodes : ∀ y ∈ follows s.pdg W, y ∈ reg.nodes := fun y hy =>
        (dequeue_follows hd y hy).1
      have := Worklist.pending_step hnd hfront hnodes
      omega

theorem pending_le_iterations (reg : Registry) (p : PropState) :
    Worklist.pending reg.nodes (view p) ≤ iterations reg p :=
  Nat.add_le_add_left List.countP_le_length _

/-- What a completed run says about flags, colours, and how often a wrapper was dequeued. -/
structure Completed (M : Module) (p : PropState) (trace : List InstructionWrapper) (s : PropState) :
    Prop where
  queue : s.queue = []
  flag : ∀ w, s.flag w = true ↔ ReachesPlus p.pdg p.queue w
  colored : SeedsColored M p → ∀ w, s.coloredInstSet w = true ↔ w ∈ p.queue ∨ s.flag w = true
  count : ∀ w, trace.count w = p.queue.count w + if s.flag w then 1 else 0

theorem completed (hp : Startable p) (hnd : reg.nodes.Nodup)
    (h : propagate M reg (iterations reg p) p = .ok s) :
    Completed M p (dequeued M reg (iterations reg p) p) s := by
  have hq := queue_eq_nil hnd h (pending_le_iterations reg p)
  have hr := running hp h
  have hcount : ∀ w, (dequeued M reg (iterations reg p) p).count w =
      p.queue.count w + if s.flag w then 1 else 0 := by
    intro w
    have := hr.search.count w
    simpa [view, hq] using this
  refine ⟨hq, fun w => hr.search.marked_iff hq, fun hc w => ?_, hcount⟩
  rw [hr.colored hc]
  refine or_congr_left ⟨And.left, fun hw => ⟨hw, ?_⟩⟩
  have hpos := List.count_pos_iff.mpr hw
  have := hcount w
  exact List.count_pos_iff.mp (by omega)

/-! ## Runs without a fault -/

/-- What a run needs: registered seeds with instructions that are no calls, and on the way links that
lead to registered wrappers with instructions. -/
structure Fit (heap : Heap) (M : Module) (reg : Registry) (p : PropState) : Prop where
  inv : reg.Inv heap M
  funcMap : ∀ f ∈ M.functions, (p.funcMap f).isSome
  flag : ∀ w, p.flag w = false
  colored : ∀ w, p.coloredInstSet w = false
  seeds : ∀ w ∈ p.queue, w ∈ reg.nodes ∧ ∃ i, w.inst = some i ∧ (M.kind i).isCall = false
  links : ∀ w, w ∈ p.queue ∨ ReachesPlus p.pdg p.queue w → ∀ q t, p.pdg.HasLink (.to w) q t →
    q = .null ∨ ∃ w' ∈ reg.nodes, q = .to w'
  reach : ∀ w, ReachesPlus p.pdg p.queue w → ∃ i, w.inst = some i

/-- A wrapper on the way is registered and carries an instruction. -/
theorem Fit.onTheWay (h : Fit heap M reg p) {w : InstructionWrapper}
    (hw : w ∈ p.queue ∨ ReachesPlus p.pdg p.queue w) : ∃ i, Rep reg (.inst i) w := by
  have hnode : w ∈ reg.nodes := by
    rcases hw with hw | ⟨x, hx, hr⟩
    · exact (h.seeds w hw).1
    · obtain ⟨y, hxy, hyw⟩ := Relation.TransGen.tail'_iff.mp hr
      have hy : y ∈ p.queue ∨ ReachesPlus p.pdg p.queue y := by
        rcases Relation.reflTransGen_iff_eq_or_transGen.mp hxy with rfl | hxy
        · exact .inl hx
        · exact .inr ⟨x, hx, hxy⟩
      obtain ⟨t, _, hl⟩ := mem_follows.mp hyw
      rcases h.links y hy _ t hl with hn | ⟨w', hw', he⟩
      · cases hn
      · cases he
        exact hw'
  obtain ⟨i, hi⟩ : ∃ i, w.inst = some i := by
    rcases hw with hw | hw
    · obtain ⟨_, i, hi, _⟩ := h.seeds w hw
      exact ⟨i, hi⟩
    · exact h.reach w hw
  exact ⟨i, rep_of_inst h.inv hnode hi⟩

theorem Fit.startable (h : Fit heap M reg p) : Startable p := ⟨h.flag, h.colored⟩

theorem Fit.seedsColored (h : Fit heap M reg p) : SeedsColored M p := by
  intro w hw
  obtain ⟨hn, i, hi, hc⟩ := h.seeds w hw
  have hrep := (rep_of_inst h.inv hn hi).isInst h.inv
  simp [colors, hrep.value, hc]

/-- No iteration faults. -/
theorem Fit.iterate_ok (h : Fit heap M reg p) (hr : Running M p done s) :
    ∃ s', iterate M reg s = .ok s' := by
  cases hq : s.queue with
  | nil => exact ⟨s, by simp [iterate, hq]⟩
  | cons W queue =>
    have hW := (hr.seed_or_flag hq).imp_right (hr.search.sound W)
    obtain ⟨i, hrep⟩ := h.onTheWay hW
    have hi := hrep.isInst h.inv
    have hfunc : ∀ j w, Rep reg (.inst j) w → (s.funcMap (M.parent j)).isSome := by
      intro j w hw
      rw [hr.func_isSome]
      exact h.funcMap _ (hw.mem_list h.inv).1.1
    let s0 : PropState := { s with queue := queue }
    have hit : iterate M reg s = dequeue M reg s0 W := by
      unfold iterate
      rw [hq]
    rw [hit]
    cases hd : dequeue M reg s0 W with
    | ok s' => exact ⟨s', rfl⟩
    | error e =>
      exfalso
      obtain ⟨_, hc1, hc2⟩ := dequeue_error (s := s0)
        (fun _ => ⟨M.parent i, hi.func, hfunc i W hrep⟩)
        (fun q t hl => h.links W hW q t (by
          unfold DependencyGraph.HasLink at hl ⊢
          rwa [← hr.linksFrom])) (fun w hw => h.reach w (hr.search.sound w hw))
        (fun adj hadj => by
          rw [show follows s0.pdg = follows p.pdg from follows_congr hr.linksFrom] at hadj
          have hplus : ReachesPlus p.pdg p.queue adj := by
            rcases hW with hw | ⟨x, hx, hxw⟩
            · exact ⟨W, hw, .single hadj⟩
            · exact ⟨x, hx, hxw.tail hadj⟩
          obtain ⟨j, hj⟩ := h.onTheWay (.inr hplus)
          exact ⟨fun _ => ⟨i, hi.inst⟩, j, (hj.isInst h.inv).inst, hfunc j adj hj⟩) hd
      rcases hr.colored_front h.seedsColored hq with hc | hc
      · rw [show s0.coloredInstSet W = s.coloredInstSet W from rfl, hc] at hc1
        cases hc1
      · rw [hc] at hc2
        cases hc2

/-- The loop ends without a fault, so every look-up in `taintMap` finds an entry. It flags exactly
the wrappers reachable from a seed in one or more followed links, colours the seeds and the flagged
wrappers, and dequeues a wrapper as often as it is a seed, and once more if it is flagged. -/
theorem propagate_exact (h : Fit heap M reg p) :
    ∃ p', propagate M reg (iterations reg p) p = .ok p' ∧ p'.queue = [] ∧
      (∀ w, p'.flag w = true ↔ ReachesPlus p.pdg p.queue w) ∧
      (∀ w, p'.coloredInstSet w = true ↔ w ∈ p.queue ∨ p'.flag w = true) ∧
      ∀ w, (dequeued M reg (iterations reg p) p).count w =
        p.queue.count w + if p'.flag w then 1 else 0 := by
  obtain ⟨p', hp', _⟩ := iterM_total (f := iterate M reg)
    (P := fun s => ∃ done, Running M p done s) (by
      rintro s ⟨done, hr⟩
      obtain ⟨s', hs'⟩ := h.iterate_ok hr
      refine ⟨s', hs', ?_⟩
      rcases iterate_ok hs' with ⟨_, rfl⟩ | ⟨W, queue, hq, _⟩
      · exact ⟨done, hr⟩
      · exact ⟨done ++ [W], hr.next hq hs'⟩)
    ⟨[], h.startable.running⟩ (iterations reg p)
  have hc := completed h.startable h.inv.nodes_nodup hp'
  exact ⟨p', hp', hc.queue, hc.flag, hc.colored h.seedsColored, hc.count⟩

end Run

/-! ## A cycle of two wrappers -/

namespace TwoNodeCycle

def inst (i : InstId) : Instruction :=
  Option.getD (List.lookup i [
    (0, ⟨"p", 1, .alloca (.other 1), 0⟩),
    (1, ⟨"t", 2, .load (.inst 0), 0⟩)])
    ⟨"", 3, .ret none, 0⟩

def M : Module where
  inst := inst
  func _ := { name := "main", blocks := [⟨0, [0, 1, 2]⟩] }
  functions := [0]
  globals := []
  annotations := []

def reg : Registry := Registry.empty.constructInstMap Env.straightLine.heap M 0

/-- `w0` is the seed, and the links lead from it to `w1` and back. -/
def init (w0 w1 : InstructionWrapper) : PropState where
  queue := [w0]
  flag _ := false
  coloredInstSet _ := false
  taintMap _ := none
  funcMap _ := some (.new .null)
  pdg := (DependencyGraph.empty.addDependency (.to w0) (.to w1)
    DependencyType.dataDefUse.toInt).addDependency (.to w1) (.to w0) DependencyType.control.toInt

theorem registered : reg.Inv Env.straightLine.heap M ∧ reg.Registered M 0 := by
  have h0 : Registry.empty.Inv Env.straightLine.heap M := Registry.inv_empty
  have h := Registry.constructInstMap_spec h0 (f := 0) (by decide)
  exact ⟨h.1, h.2.2⟩

theorem hasLink_init {w0 w1 : InstructionWrapper} {p q : WrapperPtr} {t : Int} :
    (init w0 w1).pdg.HasLink p q t ↔
      (p = .to w0 ∧ q = .to w1 ∧ t = DependencyType.dataDefUse.toInt) ∨
        (p = .to w1 ∧ q = .to w0 ∧ t = DependencyType.control.toInt) := by
  simp [init]

theorem fit {w0 w1 : InstructionWrapper} (h0 : Rep reg (.inst 0) w0) (h1 : Rep reg (.inst 1) w1) :
    Fit Env.straightLine.heap M reg (init w0 w1) := by
  have hinv := registered.1
  have htarget : ∀ {p q : WrapperPtr} {t : Int}, (init w0 w1).pdg.HasLink p q t →
      ∃ j w, Rep reg (.inst j) w ∧ q = .to w := by
    intro p q t hl
    rcases hasLink_init.mp hl with ⟨_, rfl, _⟩ | ⟨_, rfl, _⟩
    · exact ⟨1, w1, h1, rfl⟩
    · exact ⟨0, w0, h0, rfl⟩
  exact
    { inv := hinv
      funcMap := fun _ _ => rfl
      flag := fun _ => rfl
      colored := fun _ => rfl
      seeds := by
        intro w hw
        obtain rfl := List.mem_singleton.mp hw
        exact ⟨h0.mem_nodes hinv, 0, (h0.isInst hinv).inst, rfl⟩
      links := by
        intro w _ q t hl
        obtain ⟨j, w', hw', rfl⟩ := htarget hl
        exact .inr ⟨w', hw'.mem_nodes hinv, rfl⟩
      reach := by
        rintro w ⟨x, _, hxw⟩
        obtain ⟨y, _, hyw⟩ := Relation.TransGen.tail'_iff.mp hxw
        obtain ⟨t, _, hl⟩ := mem_follows.mp hyw
        obtain ⟨j, w', hw', he⟩ := htarget hl
        cases he
        exact ⟨j, (hw'.isInst hinv).inst⟩ }

end TwoNodeCycle

open TwoNodeCycle in
/-- On a cycle the seed is flagged too, and dequeued twice. -/
theorem propagate_exact_cycle : ∃ w0 w1 p', w0.inst = some 0 ∧ w1.inst = some 1 ∧
    propagate M reg (iterations reg (init w0 w1)) (init w0 w1) = .ok p' ∧
    p'.flag w1 = true ∧ p'.flag w0 = true ∧
    (dequeued M reg (iterations reg (init w0 w1)) (init w0 w1)).count w0 = 2 := by
  have hinv := registered.1
  obtain ⟨w0, h0⟩ := registered.2 0 (by decide)
  obtain ⟨w1, h1⟩ := registered.2 1 (by decide)
  obtain ⟨p', hp', _, hflag, _, hcount⟩ := propagate_exact (fit h0 h1)
  have hto : Follows (init w0 w1).pdg w0 w1 :=
    mem_follows.mpr ⟨_, by decide, hasLink_init.mpr (.inl ⟨rfl, rfl, rfl⟩)⟩
  have hback : Follows (init w0 w1).pdg w1 w0 :=
    mem_follows.mpr ⟨_, by decide, hasLink_init.mpr (.inr ⟨rfl, rfl, rfl⟩)⟩
  have hf1 := (hflag w1).mpr ⟨w0, by simp [init], .single hto⟩
  have hf0 := (hflag w0).mpr ⟨w0, by simp [init], .tail (.single hto) hback⟩
  refine ⟨w0, w1, p', (Rep.isInst hinv h0).inst, (Rep.isInst hinv h1).inst, hp', hf1, hf0, ?_⟩
  rw [hcount, hf0]
  simp [init]

end PDG
end DepTaint
