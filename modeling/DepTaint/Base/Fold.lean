import Mathlib.Data.List.Basic
import Mathlib.Order.Basic

/-!
# Fold

Rules for loops. A `for` loop over a container is a `foldl`, or a `foldlM` into `Except` when its
body can fault.

* `foldl_invariant`, `foldlM_invariant`: an invariant over the part of the list already visited.
* `foldl_iff`: a loop whose body only adds facts holds, at the end, what it held before and what
  each iteration adds.
* `foldl_minStep_eq_some`: a running minimum keeps the first minimal element below its start value.
-/

variable {α σ ε : Type}

/-- The invariant rule of a loop; `P pre s` speaks about the visited prefix `pre`. -/
theorem foldl_invariant {f : σ → α → σ} {P : List α → σ → Prop} {l : List α} {s : σ}
    (h0 : P [] s)
    (hstep : ∀ pre x post s, l = pre ++ x :: post → P pre s → P (pre ++ [x]) (f s x)) :
    P l (l.foldl f s) := by
  suffices h : ∀ post pre s, l = pre ++ post → P pre s → P l (post.foldl f s) from
    h l [] s rfl h0
  intro post
  induction post with
  | nil =>
    intro pre s hx hp
    rw [List.append_nil] at hx
    exact hx ▸ hp
  | cons x post ih =>
    intro pre s hx hp
    exact ih (pre ++ [x]) (f s x) (by simp [hx]) (hstep pre x post s hx hp)

/-- The invariant rule when the visited part does not matter. -/
theorem foldl_preserves {f : σ → α → σ} {P : σ → Prop} {l : List α} {s : σ} (h0 : P s)
    (hstep : ∀ s x, x ∈ l → P s → P (f s x)) : P (l.foldl f s) :=
  foldl_invariant (P := fun _ s => P s) h0 fun _ x _ s hx => hstep s x (by simp [hx])

/-- What one iteration establishes, whatever it starts from, and the others keep. -/
theorem foldl_establishes {f : σ → α → σ} {Q : σ → Prop} {l : List α} {x : α} {s : σ} (hx : x ∈ l)
    (hstep : ∀ s, Q (f s x)) (hkeep : ∀ s y, Q s → Q (f s y)) : Q (l.foldl f s) := by
  induction l generalizing s with
  | nil => cases hx
  | cons y l ih =>
    rw [List.foldl_cons]
    rcases List.mem_cons.mp hx with rfl | hx
    · exact foldl_preserves (hstep s) fun s y _ => hkeep s y
    · exact ih hx

/-- A loop that only adds facts, under an invariant `I` of its body. -/
theorem foldl_iff {f : σ → α → σ} {I R : σ → Prop} {A : α → Prop} {l : List α} {s : σ}
    (h0 : I s) (hI : ∀ s x, x ∈ l → I s → I (f s x))
    (hstep : ∀ s x, x ∈ l → I s → (R (f s x) ↔ R s ∨ A x)) :
    R (l.foldl f s) ↔ R s ∨ ∃ x ∈ l, A x := by
  induction l generalizing s with
  | nil => simp
  | cons x l ih =>
    have hx : x ∈ x :: l := List.mem_cons_self ..
    rw [List.foldl_cons, ih (hI s x hx h0) (fun s y hy => hI s y (List.mem_cons_of_mem _ hy))
      (fun s y hy => hstep s y (List.mem_cons_of_mem _ hy)), hstep s x hx h0]
    simp [or_assoc]

/-- The invariant rule of a loop that can fault: from the invariant no iteration faults. -/
theorem foldlM_invariant {f : σ → α → Except ε σ} {P : List α → σ → Prop} {l : List α} {s : σ}
    (h0 : P [] s)
    (hstep : ∀ pre x post s, l = pre ++ x :: post → P pre s →
      ∃ s', f s x = .ok s' ∧ P (pre ++ [x]) s') :
    ∃ s', l.foldlM f s = .ok s' ∧ P l s' := by
  suffices h : ∀ post pre s, l = pre ++ post → P pre s →
      ∃ s', post.foldlM f s = .ok s' ∧ P l s' from h l [] s rfl h0
  intro post
  induction post with
  | nil =>
    intro pre s hx hp
    rw [List.append_nil] at hx
    exact ⟨s, rfl, hx ▸ hp⟩
  | cons x post ih =>
    intro pre s hx hp
    obtain ⟨s1, hs1, hp1⟩ := hstep pre x post s hx hp
    obtain ⟨s2, hs2, hp2⟩ := ih (pre ++ [x]) s1 (by simp [hx]) hp1
    exact ⟨s2, by rw [List.foldlM_cons, hs1]; exact hs2, hp2⟩

/-- A loop none of whose iterations faults. -/
theorem foldlM_ok {f : σ → α → Except ε σ} {l : List α} (s : σ)
    (h : ∀ s, ∀ x ∈ l, ∃ s', f s x = .ok s') : ∃ s', l.foldlM f s = .ok s' := by
  induction l generalizing s with
  | nil => exact ⟨s, rfl⟩
  | cons x l ih =>
    obtain ⟨s1, hs1⟩ := h s x (List.mem_cons_self ..)
    obtain ⟨s2, hs2⟩ := ih s1 fun s y hy => h s y (List.mem_cons_of_mem _ hy)
    exact ⟨s2, by rw [List.foldlM_cons, hs1]; exact hs2⟩

/-- The partial-correctness rule: a loop that does not fault keeps what its body keeps. -/
theorem foldlM_preserves {f : σ → α → Except ε σ} {P : σ → Prop} {l : List α} {s s' : σ}
    (h : l.foldlM f s = .ok s') (h0 : P s)
    (hstep : ∀ s x s', x ∈ l → f s x = .ok s' → P s → P s') : P s' := by
  induction l generalizing s with
  | nil =>
    cases h
    exact h0
  | cons x l ih =>
    rw [List.foldlM_cons] at h
    cases hx : f s x with
    | error e =>
      rw [hx] at h
      cases h
    | ok s1 =>
      rw [hx] at h
      exact ih h (hstep s x s1 (List.mem_cons_self ..) hx h0)
        fun s y s' hy => hstep s y s' (List.mem_cons_of_mem _ hy)

/-- What one iteration of such a loop establishes and the others keep. -/
theorem foldlM_establishes {f : σ → α → Except ε σ} {Q : σ → Prop} {l : List α} {x : α} {s s' : σ}
    (h : l.foldlM f s = .ok s') (hx : x ∈ l) (hstep : ∀ s s', f s x = .ok s' → Q s')
    (hkeep : ∀ s y s', f s y = .ok s' → Q s → Q s') : Q s' := by
  induction l generalizing s with
  | nil => cases hx
  | cons y l ih =>
    rw [List.foldlM_cons] at h
    cases hy : f s y with
    | error e =>
      rw [hy] at h
      cases h
    | ok s1 =>
      rw [hy] at h
      rcases List.mem_cons.mp hx with rfl | hx
      · exact foldlM_preserves h (hstep s s1 hy) fun s z s' _ => hkeep s z s'
      · exact ih h hx

/-- A loop whose body succeeds wherever another one does has its results. -/
theorem foldlM_refines {f g : σ → α → Except ε σ} (h : ∀ s x s', f s x = .ok s' → g s x = .ok s')
    {l : List α} {s s' : σ} (hf : l.foldlM f s = .ok s') : l.foldlM g s = .ok s' := by
  induction l generalizing s with
  | nil => exact hf
  | cons x l ih =>
    rw [List.foldlM_cons] at hf ⊢
    cases hx : f s x with
    | error e =>
      rw [hx] at hf
      cases hf
    | ok s1 =>
      rw [hx] at hf
      rw [h s x s1 hx]
      exact ih hf

/-- A loop whose body commutes with a map of the states commutes with it. -/
theorem foldlM_comm {f : σ → α → Except ε σ} {g : σ → σ} {l : List α} {s : σ}
    (h : ∀ s, ∀ x ∈ l, f (g s) x = (f s x).map g) : l.foldlM f (g s) = (l.foldlM f s).map g := by
  induction l generalizing s with
  | nil => rfl
  | cons x l ih =>
    rw [List.foldlM_cons, List.foldlM_cons, h s x (List.mem_cons_self ..)]
    cases f s x with
    | error e => rfl
    | ok s1 => exact ih fun s y hy => h s y (List.mem_cons_of_mem _ hy)

/-- A loop that does not fault executes every iteration. -/
theorem foldlM_visits {f : σ → α → Except ε σ} {l : List α} {s s' : σ}
    (h : l.foldlM f s = .ok s') {x : α} (hx : x ∈ l) : ∃ s1 s2, f s1 x = .ok s2 := by
  induction l generalizing s with
  | nil => cases hx
  | cons y ys ih =>
    rw [List.foldlM_cons] at h
    cases hy : f s y with
    | error e =>
      rw [hy] at h
      cases h
    | ok s1 =>
      rw [hy] at h
      rcases List.mem_cons.mp hx with rfl | hx
      · exact ⟨s, s1, hy⟩
      · exact ih h hx

/-- A loop that faults faults in some iteration, in a state its body has kept. -/
theorem foldlM_eq_error {f : σ → α → Except ε σ} {P : σ → Prop} {l : List α} {s : σ} {e : ε}
    (h : l.foldlM f s = .error e) (h0 : P s)
    (hstep : ∀ s x s', x ∈ l → f s x = .ok s' → P s → P s') :
    ∃ s1, ∃ x ∈ l, P s1 ∧ f s1 x = .error e := by
  induction l generalizing s with
  | nil => cases h
  | cons x l ih =>
    rw [List.foldlM_cons] at h
    cases hx : f s x with
    | error e' =>
      rw [hx] at h
      cases h
      exact ⟨s, x, List.mem_cons_self .., h0, hx⟩
    | ok s1 =>
      rw [hx] at h
      obtain ⟨s2, y, hy, hp, he⟩ := ih h (hstep s x s1 (List.mem_cons_self ..) hx h0)
        fun s y s' hy => hstep s y s' (List.mem_cons_of_mem _ hy)
      exact ⟨s2, y, List.mem_cons_of_mem _ hy, hp, he⟩

/-! ## Running minimum -/

section FirstMin

variable {d : α → Int} {bound : Int}

/-- One step of a running minimum: a strictly smaller value replaces the candidate. -/
def minStep (d : α → Int) (acc : Int × Option α) (x : α) : Int × Option α :=
  if acc.1 > d x then (d x, some x) else acc

/-- `m` is below `bound`, minimal in `xs`, and first among the minimal elements. -/
def IsFirstMin (d : α → Int) (bound : Int) (xs : List α) (m : α) : Prop :=
  d m < bound ∧ ∃ pre post, xs = pre ++ m :: post ∧ (∀ x ∈ pre, d m < d x) ∧ ∀ x ∈ post, d m ≤ d x

theorem IsFirstMin.unique {xs : List α} {m m' : α} (h : IsFirstMin d bound xs m)
    (h' : IsFirstMin d bound xs m') : m = m' := by
  obtain ⟨_, pre, post, hx, hpre, hpost⟩ := h
  obtain ⟨_, pre', post', hx', hpre', hpost'⟩ := h'
  rw [hx] at hx'
  rcases List.append_eq_append_iff.mp hx' with ⟨as, h1, h2⟩ | ⟨as, h1, h2⟩
  · cases as with
    | nil => exact (List.cons.inj h2).1
    | cons a as =>
      -- `m` stands before `m'`
      obtain ⟨hma, hpost'⟩ := List.cons.inj h2
      have hlt : d m' < d m := hpre' m (by rw [h1, hma]; simp)
      have hle : d m ≤ d m' := hpost m' (by rw [hpost']; simp)
      omega
  · cases as with
    | nil => exact (List.cons.inj h2).1.symm
    | cons a as =>
      obtain ⟨hma, hpost''⟩ := List.cons.inj h2
      have hlt : d m < d m' := hpre m' (by rw [h1, hma]; simp)
      have hle : d m' ≤ d m := hpost' m (by rw [hpost'']; simp)
      omega

/-- What the loop knows of the visited prefix. -/
def MinInv (d : α → Int) (bound : Int) (pre : List α) : Int × Option α → Prop
  | (best, none) => best = bound ∧ ∀ x ∈ pre, bound ≤ d x
  | (best, some m) => best = d m ∧ IsFirstMin d bound pre m

theorem minInv_step {pre : List α} {x : α} {acc : Int × Option α} (h : MinInv d bound pre acc) :
    MinInv d bound (pre ++ [x]) (minStep d acc x) := by
  obtain ⟨best, cand⟩ := acc
  by_cases hx : best > d x
  · -- `x` replaces the candidate, and every earlier value is larger
    have hall : ∀ y ∈ pre, d x < d y := by
      intro y hy
      cases cand with
      | none =>
        have := h.2 y hy
        have := h.1
        omega
      | some m =>
        obtain ⟨rfl, hlt, p, q, rfl, hp, hq⟩ := h
        rcases List.mem_append.mp hy with hy | hy
        · have := hp y hy
          omega
        · rcases List.mem_cons.mp hy with rfl | hy
          · exact hx
          · have := hq y hy
            omega
    have hbound : d x < bound := by
      cases cand with
      | none =>
        have := h.1
        omega
      | some m =>
        have := h.1
        have := h.2.1
        omega
    rw [minStep, if_pos hx]
    exact ⟨rfl, hbound, pre, [], rfl, hall, by simp⟩
  · rw [minStep, if_neg hx]
    cases cand with
    | none =>
      refine ⟨h.1, fun y hy => ?_⟩
      rcases List.mem_append.mp hy with hy | hy
      · exact h.2 y hy
      · rw [List.mem_singleton.mp hy]
        have := h.1
        omega
    | some m =>
      obtain ⟨rfl, hlt, p, q, rfl, hp, hq⟩ := h
      refine ⟨rfl, hlt, p, q ++ [x], by simp, hp, fun y hy => ?_⟩
      rcases List.mem_append.mp hy with hy | hy
      · exact hq y hy
      · rw [List.mem_singleton.mp hy]
        omega

theorem foldl_minStep (xs : List α) : MinInv d bound xs (xs.foldl (minStep d) (bound, none)) :=
  foldl_invariant (P := MinInv d bound) ⟨rfl, by simp⟩ fun _ _ _ _ _ => minInv_step

/-- The loop keeps `m` exactly when `m` is the first minimum below the start value. -/
theorem foldl_minStep_eq_some {xs : List α} {m : α} :
    (xs.foldl (minStep d) (bound, none)).2 = some m ↔ IsFirstMin d bound xs m := by
  have key : MinInv d bound xs (xs.foldl (minStep d) (bound, none)) := foldl_minStep xs
  generalize xs.foldl (minStep d) (bound, none) = acc at key ⊢
  obtain ⟨best, cand⟩ := acc
  cases cand with
  | none =>
    constructor
    · intro h
      cases h
    · rintro ⟨hlt, pre, post, rfl, _⟩
      have := key.2 m (by simp)
      omega
  | some m' =>
    constructor
    · rintro ⟨⟩
      exact key.2
    · intro h
      rw [h.unique key.2]

/-- Something below the start value has a first minimum. -/
theorem exists_isFirstMin {xs : List α} {x : α} (hx : x ∈ xs) (hlt : d x < bound) :
    ∃ m, IsFirstMin d bound xs m := by
  have key : MinInv d bound xs (xs.foldl (minStep d) (bound, none)) := foldl_minStep xs
  generalize xs.foldl (minStep d) (bound, none) = acc at key
  obtain ⟨best, cand⟩ := acc
  cases cand with
  | none =>
    have := key.2 x hx
    omega
  | some m => exact ⟨m, key.2⟩

/-- The first minimum of the elements that pass a filter, in the unfiltered list. -/
theorem isFirstMin_filter {xs : List α} {p : α → Bool} {m : α} :
    IsFirstMin d bound (xs.filter p) m ↔ d m < bound ∧ p m = true ∧
      ∃ pre post, xs = pre ++ m :: post ∧ (∀ x ∈ pre, p x = true → d m < d x) ∧
        ∀ x ∈ post, p x = true → d m ≤ d x := by
  refine and_congr_right fun _ => ?_
  constructor
  · rintro ⟨pre, post, hx, hpre, hpost⟩
    obtain ⟨ys, zs, rfl, rfl, hzs⟩ := List.filter_eq_append_iff.mp hx
    obtain ⟨as, bs, rfl, has, hm, rfl⟩ := List.filter_eq_cons_iff.mp hzs
    refine ⟨hm, ys ++ as, bs, by simp, fun x hx hpx => ?_, fun x hx hpx =>
      hpost x (List.mem_filter.mpr ⟨hx, hpx⟩)⟩
    rcases List.mem_append.mp hx with hx | hx
    · exact hpre x (List.mem_filter.mpr ⟨hx, hpx⟩)
    · exact absurd hpx (has x hx)
  · rintro ⟨hm, pre, post, rfl, hpre, hpost⟩
    refine ⟨pre.filter p, post.filter p, by simp [hm], fun x hx => ?_, fun x hx => ?_⟩
    · exact hpre x (List.mem_filter.mp hx).1 (List.mem_filter.mp hx).2
    · exact hpost x (List.mem_filter.mp hx).1 (List.mem_filter.mp hx).2

end FirstMin
