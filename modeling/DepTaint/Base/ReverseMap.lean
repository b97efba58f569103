import Mathlib.Data.List.Nodup
import Mathlib.Logic.Function.Basic

/-!
# ReverseMap

Caches keep, next to a map from keys to what their entries name, a map back from each name to the
set of keys: a target is looked up in it when it goes away.

* `Represents m R`: the reverse map `m` holds the pairs of the relation `R`, each once, and no
  empty set.
* `Represents.insert`, `.insertAll`, `.remove`, `.removeAll`, `.erase`: what each operation does to
  the relation. A pair is removed without failure exactly when the relation has it.
-/

abbrev ReverseMap (τ κ : Type) := τ → Option (List κ)

namespace ReverseMap

variable {τ κ : Type}

/-- `k` is in the set of `t`. -/
def Mem (m : ReverseMap τ κ) (t : τ) (k : κ) : Prop := ∃ ks, m t = some ks ∧ k ∈ ks

/-- How the removal of a pair fails: the target has no set, or the key is not in it. -/
inductive Failure where
  | noSet
  | notInSet
deriving DecidableEq

section Operations

variable [DecidableEq τ] [DecidableEq κ]

def insert (m : ReverseMap τ κ) (t : τ) (k : κ) : ReverseMap τ κ :=
  Function.update m t (some (((m t).getD []).insert k))

def insertAll (m : ReverseMap τ κ) (pairs : List (τ × κ)) : ReverseMap τ κ :=
  pairs.foldl (fun m p => m.insert p.1 p.2) m

/-- Take `k` out of the set of `t`, and the set out of the map when it becomes empty. -/
def remove (m : ReverseMap τ κ) (t : τ) (k : κ) : Except Failure (ReverseMap τ κ) :=
  match m t with
  | none => .error .noSet
  | some ks =>
    if k ∈ ks then
      let ks' := ks.filter (· ≠ k)
      .ok (Function.update m t (if ks' = [] then none else some ks'))
    else .error .notInSet

/-- Take `k` out of the set of every target in the list. -/
def removeAll (m : ReverseMap τ κ) (ts : List τ) (k : κ) : Except Failure (ReverseMap τ κ) :=
  ts.foldlM (fun m t => m.remove t k) m

/-- Drop the set of `t`. -/
def erase (m : ReverseMap τ κ) (t : τ) : ReverseMap τ κ := Function.update m t none

end Operations

section Update

variable [DecidableEq τ] {m : ReverseMap τ κ} {t t' : τ} {k : κ} {ks : Option (List κ)}

theorem mem_update_self : Mem (Function.update m t ks) t k ↔ ∃ l, ks = some l ∧ k ∈ l := by
  rw [Mem, Function.update_self]

theorem mem_update_of_ne (h : t' ≠ t) : Mem (Function.update m t ks) t' k ↔ m.Mem t' k := by
  rw [Mem, Function.update_of_ne h, Mem]

/-- A set as the map holds it. -/
def Tidy (ks : Option (List κ)) : Prop := ∀ l, ks = some l → l ≠ [] ∧ l.Nodup

theorem update_tidy (hm : ∀ t, Tidy (m t)) (hks : Tidy ks) : Tidy (Function.update m t ks t') := by
  by_cases h : t' = t
  · subst h
    rwa [Function.update_self]
  · rw [Function.update_of_ne h]
    exact hm t'

end Update

structure Represents (m : ReverseMap τ κ) (R : κ → τ → Prop) : Prop where
  mem_iff : ∀ t k, m.Mem t k ↔ R k t
  tidy : ∀ t, Tidy (m t)

theorem represents_empty : Represents (fun _ => none : ReverseMap τ κ) fun _ _ => False where
  mem_iff t k := by simp [Mem]
  tidy t := by simp [Tidy]

namespace Represents

variable {m : ReverseMap τ κ} {R R' : κ → τ → Prop} {t : τ} {k : κ}

theorem congr (h : Represents m R) (hR : ∀ k t, R k t ↔ R' k t) : Represents m R' where
  mem_iff t k := (h.mem_iff t k).trans (hR k t)
  tidy := h.tidy

/-- A target that has a set is named by some key. -/
theorem exists_of_isSome (h : Represents m R) (ht : (m t).isSome) : ∃ k, R k t := by
  obtain ⟨ks, hks⟩ := Option.isSome_iff_exists.mp ht
  obtain ⟨k, hk⟩ := List.exists_mem_of_ne_nil ks (h.tidy t ks hks).1
  exact ⟨k, (h.mem_iff t k).mp ⟨ks, hks, hk⟩⟩

theorem mem_set_iff (h : Represents m R) {ks : List κ} (hks : m t = some ks) :
    k ∈ ks ↔ R k t := by
  rw [← h.mem_iff, Mem]
  simp [hks]

theorem not_of_none (h : Represents m R) (ht : m t = none) : ¬ R k t := by
  intro hR
  obtain ⟨ks, hks, _⟩ := (h.mem_iff t k).mpr hR
  rw [ht] at hks
  cases hks

section Operations

variable [DecidableEq τ]

theorem erase (h : Represents m R) : Represents (m.erase t) fun k' t' => R k' t' ∧ t' ≠ t where
  mem_iff t' k' := by
    rw [← h.mem_iff, ReverseMap.erase]
    by_cases ht : t' = t
    · subst ht
      simp [mem_update_self]
    · simp [mem_update_of_ne ht, ht]
  tidy t' := update_tidy h.tidy (by simp [Tidy])

variable [DecidableEq κ]

theorem insert (h : Represents m R) :
    Represents (m.insert t k) fun k' t' => R k' t' ∨ (t' = t ∧ k' = k) where
  mem_iff t' k' := by
    rw [← h.mem_iff, ReverseMap.insert]
    by_cases ht : t' = t
    · subst ht
      rw [mem_update_self, Mem]
      cases m t' <;> simp [or_comm]
    · simp [mem_update_of_ne ht, ht]
  tidy t' := by
    refine update_tidy h.tidy fun l hl => ?_
    rw [← Option.some.inj hl]
    refine ⟨List.ne_nil_of_mem List.mem_insert_self, List.Nodup.insert ?_⟩
    cases hm : m t with
    | none => simp
    | some ks => simpa using (h.tidy t ks hm).2

theorem insertAll (h : Represents m R) (pairs : List (τ × κ)) :
    Represents (m.insertAll pairs) fun k' t' => R k' t' ∨ (t', k') ∈ pairs := by
  induction pairs generalizing m R with
  | nil => exact h.congr fun k t => by simp
  | cons p pairs ih =>
    obtain ⟨t, k⟩ := p
    refine (ih (h.insert (t := t) (k := k))).congr fun k' t' => ?_
    rw [List.mem_cons, Prod.mk.injEq, or_assoc]

theorem remove (h : Represents m R) (hR : R k t) :
    ∃ m', m.remove t k = .ok m' ∧
      Represents m' fun k' t' => R k' t' ∧ ¬ (t' = t ∧ k' = k) := by
  obtain ⟨ks, hks, hk⟩ := (h.mem_iff t k).mpr hR
  refine ⟨_, by simp only [ReverseMap.remove, hks, if_pos hk]; rfl, fun t' k' => ?_, fun t' => ?_⟩
  · rw [← h.mem_iff]
    by_cases ht : t' = t
    · subst ht
      have hset : (∃ l, (if ks.filter (· ≠ k) = [] then none else some (ks.filter (· ≠ k))) = some l
          ∧ k' ∈ l) ↔ k' ∈ ks.filter (· ≠ k) := by
        split
        · rename_i hnil
          rw [hnil]
          simp
        · simp
      rw [mem_update_self, hset, Mem]
      simp [hks]
    · simp [mem_update_of_ne ht, ht]
  · refine update_tidy h.tidy fun l hl => ?_
    split at hl
    · cases hl
    · rename_i hnil
      rw [← Option.some.inj hl]
      exact ⟨hnil, (h.tidy t ks hks).2.filter _⟩

/-- A pair that can be removed is in the relation. -/
theorem of_remove (h : Represents m R) {m' : ReverseMap τ κ} (hm : m.remove t k = .ok m') :
    R k t := by
  unfold ReverseMap.remove at hm
  cases hks : m t with
  | none => simp only [hks] at hm; cases hm
  | some ks =>
    by_cases hk : k ∈ ks
    · exact (h.mem_set_iff hks).mp hk
    · simp only [hks, if_neg hk] at hm
      cases hm

theorem removeAll (h : Represents m R) {ts : List τ} (hnd : ts.Nodup) (hR : ∀ t ∈ ts, R k t) :
    ∃ m', m.removeAll ts k = .ok m' ∧
      Represents m' fun k' t' => R k' t' ∧ ¬ (t' ∈ ts ∧ k' = k) := by
  induction ts generalizing m R with
  | nil => exact ⟨m, rfl, h.congr fun k' t' => by simp⟩
  | cons t ts ih =>
    obtain ⟨hnot, hnd⟩ := List.nodup_cons.mp hnd
    obtain ⟨m1, hm1, h1⟩ := h.remove (hR t (List.mem_cons_self ..))
    obtain ⟨m2, hm2, h2⟩ := ih h1 hnd fun t' ht' =>
      ⟨hR t' (List.mem_cons_of_mem _ ht'), fun hx => hnot (hx.1 ▸ ht')⟩
    refine ⟨m2, ?_, h2.congr fun k' t' => ?_⟩
    · show (do let m1 ← m.remove t k; m1.removeAll ts k) = _
      rw [hm1]
      exact hm2
    · rw [List.mem_cons]
      constructor
      · intro ⟨⟨hr, h1⟩, h2⟩
        exact ⟨hr, fun hx => hx.1.elim (fun ht => h1 ⟨ht, hx.2⟩) fun ht => h2 ⟨ht, hx.2⟩⟩
      · intro ⟨hr, h1⟩
        exact ⟨⟨hr, fun hx => h1 ⟨.inl hx.1, hx.2⟩⟩, fun hx => h1 ⟨.inr hx.1, hx.2⟩⟩

theorem of_removeAll (h : Represents m R) {ts : List τ} {m' : ReverseMap τ κ}
    (hm : m.removeAll ts k = .ok m') : ∀ t ∈ ts, R k t := by
  induction ts generalizing m R with
  | nil => simp
  | cons t ts ih =>
    unfold ReverseMap.removeAll at hm
    rw [List.foldlM_cons] at hm
    cases hm1 : m.remove t k with
    | error e =>
      rw [hm1] at hm
      cases hm
    | ok m1 =>
      rw [hm1] at hm
      have hR := h.of_remove hm1
      obtain ⟨m1', hm1', h1⟩ := h.remove hR
      obtain rfl : m1' = m1 := by
        rw [hm1] at hm1'
        exact (Except.ok.inj hm1').symm
      intro t' ht'
      rcases List.mem_cons.mp ht' with rfl | ht'
      · exact hR
      · exact (ih h1 hm t' ht').1

/-- A pair that has been removed cannot be removed again. -/
theorem nodup_of_removeAll (h : Represents m R) {ts : List τ} {m' : ReverseMap τ κ}
    (hm : m.removeAll ts k = .ok m') : ts.Nodup := by
  induction ts generalizing m R with
  | nil => exact .nil
  | cons t ts ih =>
    have hR := h.of_removeAll hm t (List.mem_cons_self ..)
    obtain ⟨m1, hm1, h1⟩ := h.remove hR
    unfold ReverseMap.removeAll at hm
    rw [List.foldlM_cons, hm1] at hm
    refine List.nodup_cons.mpr ⟨fun ht => ?_, ih h1 hm⟩
    exact (h1.of_removeAll hm t ht).2 ⟨rfl, rfl⟩

end Operations

end Represents
end ReverseMap
