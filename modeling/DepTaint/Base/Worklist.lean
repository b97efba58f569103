import Mathlib.Data.List.Nodup
import Mathlib.Logic.Function.Basic
import Mathlib.Logic.Relation

/-!
# Worklist

Breadth-first search with a first-in first-out queue. The start elements are in the queue unmarked;
a dequeued element marks and enqueues its unmarked successors. A start element that lies on a cycle
or below another start element is therefore enqueued again, once.

* `Inv`: what holds while the search runs, in terms of the elements dequeued so far.
* `marked_iff`: when the queue is empty, exactly the elements reachable in one or more steps are
  marked.
* `pending_step`: every step takes one off the elements in the queue and the unmarked elements.

`iterM` iterates a step that can fault; a program that runs the search is such a step.
-/

/-! ## Iterating a step that can fault -/

section Iterate

variable {σ ε : Type} {f : σ → Except ε σ} {s s' : σ} {n : Nat}

def iterM (f : σ → Except ε σ) : Nat → σ → Except ε σ
  | 0, s => .ok s
  | n + 1, s => do
    let s ← f s
    iterM f n s

theorem bind_eq_ok {α β : Type} {x : Except ε α} {g : α → Except ε β} {b : β} :
    (x >>= g) = .ok b ↔ ∃ a, x = .ok a ∧ g a = .ok b := by
  cases x with
  | error e => simp [bind, Except.bind]
  | ok a => simp [bind, Except.bind]

theorem exists_ok {α : Type} {x : Except ε α} {P : α → Bool} (h : x.toOption.any P = true) :
    ∃ a, x = .ok a ∧ P a = true := by
  cases x with
  | error e => cases h
  | ok a => exact ⟨a, rfl, h⟩

/-- The results of a traversal that does not fault are those of the elements. -/
theorem mem_of_mapM_ok {α β : Type} {g : α → Except ε β} {l : List α} {l' : List β}
    (h : l.mapM g = .ok l') {b : β} : b ∈ l' ↔ ∃ a ∈ l, g a = .ok b := by
  induction l generalizing l' with
  | nil =>
    cases h
    simp
  | cons x xs ih =>
    rw [List.mapM_cons] at h
    obtain ⟨y, hy, h⟩ := bind_eq_ok.mp h
    obtain ⟨ys, hys, h⟩ := bind_eq_ok.mp h
    cases h
    rw [List.mem_cons, ih hys, List.exists_mem_cons_iff, hy, Except.ok.injEq, eq_comm]

theorem exists_of_mapM_ok {α β : Type} {g : α → Except ε β} {l : List α} {l' : List β}
    (h : l.mapM g = .ok l') {a : α} (ha : a ∈ l) : ∃ b, g a = .ok b := by
  induction l generalizing l' with
  | nil => cases ha
  | cons x xs ih =>
    rw [List.mapM_cons] at h
    obtain ⟨y, hy, h⟩ := bind_eq_ok.mp h
    obtain ⟨ys, hys, _⟩ := bind_eq_ok.mp h
    rcases List.mem_cons.mp ha with rfl | ha
    · exact ⟨y, hy⟩
    · exact ih hys ha

theorem iterM_succ_eq_ok :
    iterM f (n + 1) s = .ok s' ↔ ∃ s1, f s = .ok s1 ∧ iterM f n s1 = .ok s' :=
  bind_eq_ok

/-- From an invariant under which no step faults, no run faults. -/
theorem iterM_total {P : σ → Prop} (hstep : ∀ s, P s → ∃ s', f s = .ok s' ∧ P s') (h0 : P s)
    (n : Nat) : ∃ s', iterM f n s = .ok s' ∧ P s' := by
  induction n generalizing s with
  | zero => exact ⟨s, rfl, h0⟩
  | succ n ih =>
    obtain ⟨s1, h1, hp⟩ := hstep s h0
    obtain ⟨s2, h2, hp2⟩ := ih hp
    exact ⟨s2, iterM_succ_eq_ok.mpr ⟨s1, h1, h2⟩, hp2⟩

/-- A loop whose every iteration keeps an invariant and, until it is done, lowers a measure. -/
theorem iterM_drains {P done : σ → Prop} {μ : σ → Nat}
    (hstep : ∀ s, P s → ∃ s', f s = .ok s' ∧ P s' ∧ (done s → done s') ∧ (¬ done s → μ s' < μ s))
    (h0 : P s) (hn : μ s ≤ n) : ∃ s', iterM f n s = .ok s' ∧ P s' ∧ done s' := by
  suffices h : ∀ n s, P s → (done s ∨ μ s ≤ n) → ∃ s', iterM f n s = .ok s' ∧ P s' ∧ done s' from
    h n s h0 (.inr hn)
  intro n
  induction n with
  | zero =>
    intro s hp hd
    refine ⟨s, rfl, hp, hd.elim id fun hμ => ?_⟩
    by_contra hx
    obtain ⟨s1, _, _, _, hlt⟩ := hstep s hp
    have := hlt hx
    omega
  | succ n ih =>
    intro s hp hd
    obtain ⟨s1, h1, hp1, hkeep, hlt⟩ := hstep s hp
    have hd1 : done s1 ∨ μ s1 ≤ n := by
      by_cases hx : done s
      · exact .inl (hkeep hx)
      · have := hlt hx
        have := hd.resolve_left hx
        exact .inr (by omega)
    obtain ⟨s2, h2, hp2⟩ := ih s1 hp1 hd1
    exact ⟨s2, iterM_succ_eq_ok.mpr ⟨s1, h1, h2⟩, hp2⟩

/-- A run that faults faults in a state it reaches. -/
theorem iterM_eq_error {e : ε} (h : iterM f n s = .error e) :
    ∃ k < n, ∃ s1, iterM f k s = .ok s1 ∧ f s1 = .error e := by
  induction n generalizing s with
  | zero => cases h
  | succ n ih =>
    cases hs : f s with
    | error e' =>
      simp only [iterM, hs, bind, Except.bind] at h
      exact ⟨0, Nat.succ_pos n, s, rfl, by rw [hs]; exact h⟩
    | ok s1 =>
      simp only [iterM, hs, bind, Except.bind] at h
      obtain ⟨k, hk, s2, h2, he⟩ := ih h
      exact ⟨k + 1, Nat.succ_lt_succ hk, s2, iterM_succ_eq_ok.mpr ⟨s1, hs, h2⟩, he⟩

/-- A run is a prefix and the rest. -/
theorem iterM_add_eq_ok {m : Nat} : iterM f (n + m) s = .ok s' ↔
    ∃ s1, iterM f n s = .ok s1 ∧ iterM f m s1 = .ok s' := by
  induction n generalizing s with
  | zero => simp [iterM]
  | succ n ih =>
    rw [Nat.succ_add, iterM_succ_eq_ok]
    simp only [ih, iterM_succ_eq_ok]
    constructor
    · rintro ⟨s1, h1, s2, h2, h3⟩
      exact ⟨s2, ⟨s1, h1, h2⟩, h3⟩
    · rintro ⟨s2, ⟨s1, h1, h2⟩, h3⟩
      exact ⟨s1, h1, s2, h2, h3⟩

end Iterate

/-! ## The search -/

structure Worklist (α : Type) where
  queue : List α
  marked : α → Bool

namespace Worklist

variable {α : Type} [DecidableEq α]

/-- Enqueue and mark `y`, unless it is marked. -/
def push (s : Worklist α) (y : α) : Worklist α :=
  if s.marked y then s else ⟨s.queue ++ [y], Function.update s.marked y true⟩

/-- Dequeue the front element and push its successors. -/
def step (succ : α → List α) (s : Worklist α) : Worklist α :=
  match s.queue with
  | [] => s
  | x :: queue => (succ x).foldl push ⟨queue, s.marked⟩

/-- `y` is a successor of `x`. -/
def Succ (succ : α → List α) (x y : α) : Prop := y ∈ succ x

variable {succ : α → List α} {s : Worklist α} {x y : α} {seeds done : List α}

theorem push_marked : (s.push y).marked x = true ↔ s.marked x = true ∨ x = y := by
  unfold push
  split
  · rename_i h
    constructor
    · exact Or.inl
    · rintro (hx | rfl)
      · exact hx
      · exact h
  · by_cases hx : x = y
    · simp [hx]
    · simp [hx]

theorem foldl_push_marked {ys : List α} :
    (ys.foldl push s).marked x = true ↔ s.marked x = true ∨ x ∈ ys := by
  induction ys generalizing s with
  | nil => simp
  | cons y ys ih => rw [List.foldl_cons, ih, push_marked, List.mem_cons, or_assoc]

/-- An element is in the queue as often as before, and once more if it got marked. -/
theorem push_count : (s.push y).queue.count x + (if s.marked x then 1 else 0) =
    s.queue.count x + (if (s.push y).marked x then 1 else 0) := by
  unfold push
  split
  · rfl
  · rename_i h
    by_cases hx : x = y
    · subst hx
      simp [h]
    · simp [hx, Ne.symm hx]

theorem foldl_push_count {l : List α} :
    (l.foldl push s).queue.count x + (if s.marked x then 1 else 0) =
      s.queue.count x + (if (l.foldl push s).marked x then 1 else 0) := by
  induction l generalizing s with
  | nil => rfl
  | cons y ys ih =>
    have h1 := ih (s := s.push y)
    have h2 := push_count (s := s) (x := x) (y := y)
    rw [List.foldl_cons]
    omega

/-- Pushing only appends to the queue. -/
theorem foldl_push_queue {l : List α} : ∃ new, (l.foldl push s).queue = s.queue ++ new := by
  induction l generalizing s with
  | nil => exact ⟨[], by simp⟩
  | cons y ys ih =>
    obtain ⟨new, hnew⟩ := ih (s := s.push y)
    rw [List.foldl_cons, hnew]
    unfold push
    split
    · exact ⟨new, rfl⟩
    · exact ⟨y :: new, by simp⟩

/-- What holds while the search runs from `seeds`, once the elements in `done` are dequeued. -/
structure Inv (succ : α → List α) (seeds done : List α) (s : Worklist α) : Prop where
  count : ∀ x, done.count x + s.queue.count x = seeds.count x + if s.marked x then 1 else 0
  closed : ∀ x ∈ done, ∀ y ∈ succ x, s.marked y = true
  sound : ∀ y, s.marked y = true → ∃ x ∈ seeds, Relation.TransGen (Succ succ) x y
  order : seeds <+: done ++ s.queue

theorem inv_start (h : ∀ x, s.marked x = false) : Inv succ s.queue [] s :=
  ⟨by simp [h], by simp, by simp [h], by simp⟩

/-- The start elements are dequeued before every other element. -/
theorem Inv.seeds_done (h : Inv succ seeds done s) {queue : List α} (hq : s.queue = x :: queue)
    (hx : x ∉ seeds) : ∀ y ∈ seeds, y ∈ done := by
  obtain ⟨rest, hrest⟩ := h.order
  rw [hq] at hrest
  rcases List.append_eq_append_iff.mp hrest with ⟨as, hd, _⟩ | ⟨bs, hs, hb⟩
  · intro y hy
    simp [hd, hy]
  · cases bs with
    | nil =>
      intro y hy
      simpa [hs] using hy
    | cons b bs =>
      -- `x` would be the next start element
      obtain ⟨hxb, _⟩ := List.cons.inj hb
      exact absurd (by simp [hs, hxb]) hx

/-- An element in the queue or dequeued is a start element or marked. -/
theorem Inv.seed_or_marked (h : Inv succ seeds done s) (hx : x ∈ done ∨ x ∈ s.queue) :
    x ∈ seeds ∨ s.marked x = true := by
  by_contra hn
  rw [not_or, Bool.not_eq_true] at hn
  have hc := h.count x
  rw [hn.2, List.count_eq_zero.mpr hn.1] at hc
  rcases hx with hx | hx
  · have := List.count_pos_iff.mpr hx
    simp at hc
    omega
  · have := List.count_pos_iff.mpr hx
    simp at hc
    omega

/-- An element in the queue or dequeued is reachable from a start element. -/
theorem Inv.reachable (h : Inv succ seeds done s) (hx : x ∈ done ∨ x ∈ s.queue) :
    ∃ x0 ∈ seeds, Relation.ReflTransGen (Succ succ) x0 x := by
  rcases h.seed_or_marked hx with hx | hx
  · exact ⟨x, hx, .refl⟩
  · obtain ⟨x0, hx0, hr⟩ := h.sound x hx
    exact ⟨x0, hx0, hr.to_reflTransGen⟩

theorem Inv.next {queue : List α} (h : Inv succ seeds done s) (hq : s.queue = x :: queue) :
    Inv succ seeds (done ++ [x]) (step succ s) := by
  have hstep : step succ s = (succ x).foldl push ⟨queue, s.marked⟩ := by
    simp [step, hq]
  rw [hstep]
  refine ⟨fun y => ?_, fun y hy z hz => ?_, fun y hy => ?_, ?_⟩
  · have h1 := foldl_push_count (s := ⟨queue, s.marked⟩) (x := y) (l := succ x)
    have h2 := h.count y
    rw [hq, List.count_cons] at h2
    rw [List.count_append, List.count_singleton]
    simp only [] at h1
    omega
  · rw [foldl_push_marked]
    rcases List.mem_append.mp hy with hy | hy
    · exact .inl (h.closed y hy z hz)
    · rw [List.mem_singleton.mp hy] at hz
      exact .inr hz
  · rcases foldl_push_marked.mp hy with hy | hy
    · exact h.sound y hy
    · obtain ⟨x0, hx0, hr⟩ := h.reachable (x := x) (.inr (by simp [hq]))
      exact ⟨x0, hx0, .tail' hr hy⟩
  · obtain ⟨new, hnew⟩ := foldl_push_queue (s := ⟨queue, s.marked⟩) (l := succ x)
    obtain ⟨rest, hrest⟩ := h.order
    exact ⟨rest ++ new, by rw [hnew, ← List.append_assoc, hrest, hq]; simp⟩

theorem step_nil (h : s.queue = []) : step succ s = s := by
  simp [step, h]

/-- Once the queue is empty, the marked elements are those reachable in one or more steps. -/
theorem Inv.marked_iff (h : Inv succ seeds done s) (hq : s.queue = []) :
    s.marked y = true ↔ ∃ x ∈ seeds, Relation.TransGen (Succ succ) x y := by
  -- every start element and every marked element has been dequeued
  have hdone : ∀ x, x ∈ seeds ∨ s.marked x = true → x ∈ done := by
    intro x hx
    have hc := h.count x
    rw [hq, List.count_nil, Nat.add_zero] at hc
    refine List.count_pos_iff.mp ?_
    rcases hx with hx | hx
    · have := List.count_pos_iff.mpr hx
      omega
    · rw [hx, if_pos rfl] at hc
      omega
  refine ⟨h.sound y, ?_⟩
  rintro ⟨x, hx, hr⟩
  induction hr with
  | single hxy => exact h.closed x (hdone x (.inl hx)) _ hxy
  | tail _ hyz ih => exact h.closed _ (hdone _ (.inr ih)) _ hyz

/-! ## Termination -/

/-- The elements in the queue, and those of `U` that are not marked. -/
def pending (U : List α) (s : Worklist α) : Nat :=
  s.queue.length + U.countP fun y => !s.marked y

theorem pending_push {U : List α} (hU : U.Nodup) (hy : y ∈ U) :
    pending U (s.push y) = pending U s := by
  unfold push
  split
  · rfl
  · rename_i h
    rw [Bool.not_eq_true] at h
    have hperm : U.Perm (y :: U.erase y) := List.perm_cons_erase hy
    have hrest : (U.erase y).countP (fun z => !(Function.update s.marked y true) z) =
        (U.erase y).countP fun z => !s.marked z := by
      refine List.countP_congr fun z hz => ?_
      have hne : z ≠ y := (hU.mem_erase_iff.mp hz).1
      rw [Function.update_of_ne hne]
    simp only [pending, List.length_append, List.length_singleton, hperm.countP_eq,
      List.countP_cons, hrest, Function.update_self, h]
    simp
    omega

theorem pending_foldl_push {U : List α} (hU : U.Nodup) {ys : List α} (hys : ∀ y ∈ ys, y ∈ U) :
    pending U (ys.foldl push s) = pending U s := by
  induction ys generalizing s with
  | nil => rfl
  | cons y ys ih =>
    rw [List.foldl_cons, ih fun z hz => hys z (List.mem_cons_of_mem _ hz),
      pending_push hU (hys y (List.mem_cons_self ..))]

/-- A step takes one element off. -/
theorem pending_step {U : List α} (hU : U.Nodup) {queue : List α} (hq : s.queue = x :: queue)
    (hx : ∀ y ∈ succ x, y ∈ U) : pending U (step succ s) + 1 = pending U s := by
  simp only [step, hq]
  rw [pending_foldl_push hU hx]
  simp only [pending, hq, List.length_cons]
  omega

end Worklist
