import Mathlib.Data.List.Induction
import Mathlib.Data.List.Sort
import Mathlib.Order.Basic

/-!
# Containers

Ordered containers, as a program that iterates over `std::set` and `std::map` sees them.

* `setInsert key x s`: insertion into a set kept as a list in the order of `key`. Membership does
  not depend on the order, iteration does.
* `SortedMap κ ν`: a finite map whose entries are listed in strictly increasing key order.
* `getElem?_snoc_iff`, `mem_modify`: a vector after an element is appended or changed.
-/

/-! ## Vectors -/

section Vector

variable {β : Type}

theorem getElem?_snoc_iff {xs : List β} {x y : β} {i : Nat} :
    (xs ++ [x])[i]? = some y ↔ xs[i]? = some y ∨ (i = xs.length ∧ y = x) := by
  rcases Nat.lt_trichotomy i xs.length with h | h | h
  · rw [List.getElem?_append_left h]
    simp [Nat.ne_of_lt h]
  · subst h
    simp [eq_comm]
  · rw [List.getElem?_append_right (Nat.le_of_lt h), List.getElem?_eq_none (by simp; omega),
      List.getElem?_eq_none (Nat.le_of_lt h)]
    simp [Nat.ne_of_gt h]

theorem mem_modify {xs : List β} {f : β → β} {i : Nat} {y : β}
    (h : y ∈ xs.modify i f) : y ∈ xs ∨ ∃ x ∈ xs, y = f x := by
  induction xs generalizing i with
  | nil => simp at h
  | cons x xs ih =>
    cases i with
    | zero =>
      rcases List.mem_cons.mp (by simpa using h) with rfl | h
      · exact .inr ⟨x, by simp, rfl⟩
      · exact .inl (by simp [h])
    | succ i =>
      rcases List.mem_cons.mp (by simpa using h) with rfl | h
      · exact .inl (by simp)
      · rcases ih h with h | ⟨z, hz, rfl⟩
        · exact .inl (by simp [h])
        · exact .inr ⟨z, by simp [hz], rfl⟩

end Vector

/-! ## Sets and maps -/

section Set

variable {α : Type} [DecidableEq α]

/-- Insert `x` at its place in the order of `key`; a set holds no element twice. -/
def setInsert (key : α → Nat) (x : α) (s : List α) : List α :=
  if x ∈ s then s else s.orderedInsert (fun a b => key a ≤ key b) x

@[simp] theorem mem_setInsert {key : α → Nat} {x y : α} {s : List α} :
    y ∈ setInsert key x s ↔ y = x ∨ y ∈ s := by
  unfold setInsert
  split
  · rename_i h
    constructor
    · exact Or.inr
    · rintro (rfl | hy)
      · exact h
      · exact hy
  · simp [List.mem_orderedInsert]

theorem nodup_setInsert {key : α → Nat} {x : α} {s : List α} (h : s.Nodup) :
    (setInsert key x s).Nodup := by
  unfold setInsert
  split
  · exact h
  · rename_i hx
    exact (List.perm_orderedInsert _ x s).nodup_iff.mpr (List.nodup_cons.mpr ⟨hx, h⟩)

end Set

/-- The distinct elements of a list that grows at its end, in order of first occurrence. -/
theorem eraseDups_snoc {α : Type} [BEq α] [LawfulBEq α] [DecidableEq α] (xs : List α) (x : α) :
    (xs ++ [x]).eraseDups = if x ∈ xs then xs.eraseDups else xs.eraseDups ++ [x] := by
  rw [List.eraseDups_append]
  by_cases hx : x ∈ xs <;> simp [List.removeAll, hx, List.eraseDups_cons]

/-- A finite map listed in strictly increasing key order. -/
structure SortedMap (κ ν : Type) [LinearOrder κ] where
  entries : List (κ × ν)
  sorted : entries.Pairwise (fun a b => a.1 < b.1)

namespace SortedMap

variable {κ ν : Type} [LinearOrder κ]

def empty : SortedMap κ ν := ⟨[], .nil⟩

/-- The value stored under `k`. -/
def find? (m : SortedMap κ ν) (k : κ) : Option ν := m.entries.lookup k

def insertEntry (k : κ) (v : ν) : List (κ × ν) → List (κ × ν)
  | [] => [(k, v)]
  | e :: es =>
    if k < e.1 then (k, v) :: e :: es
    else if k = e.1 then (k, v) :: es
    else e :: insertEntry k v es

theorem mem_insertEntry {k : κ} {v : ν} {es : List (κ × ν)} {e : κ × ν}
    (h : e ∈ insertEntry k v es) : e = (k, v) ∨ e ∈ es := by
  induction es with
  | nil => simpa [insertEntry] using h
  | cons d ds ih =>
    unfold insertEntry at h
    split at h
    · simpa using h
    · split at h
      · rcases List.mem_cons.mp h with rfl | h
        · exact .inl rfl
        · exact .inr (List.mem_cons_of_mem _ h)
      · rcases List.mem_cons.mp h with rfl | h
        · exact .inr (List.mem_cons_self ..)
        · exact (ih h).imp_right (List.mem_cons_of_mem _)

theorem sorted_insertEntry {k : κ} {v : ν} {es : List (κ × ν)}
    (h : es.Pairwise (fun a b => a.1 < b.1)) :
    (insertEntry k v es).Pairwise (fun a b => a.1 < b.1) := by
  induction es with
  | nil => simp [insertEntry]
  | cons d ds ih =>
    obtain ⟨hd, hds⟩ := List.pairwise_cons.mp h
    unfold insertEntry
    split
    · rename_i hlt
      refine List.pairwise_cons.mpr ⟨fun e he => ?_, h⟩
      rcases List.mem_cons.mp he with rfl | he
      · exact hlt
      · exact lt_trans hlt (hd e he)
    · split
      · rename_i heq
        exact List.pairwise_cons.mpr ⟨fun e he => heq ▸ hd e he, hds⟩
      · rename_i hnlt hne
        refine List.pairwise_cons.mpr ⟨fun e he => ?_, ih hds⟩
        rcases mem_insertEntry he with rfl | he
        · exact lt_of_le_of_ne (not_lt.mp hnlt) (Ne.symm hne)
        · exact hd e he

/-- `m[k] = v`. -/
def insert (m : SortedMap κ ν) (k : κ) (v : ν) : SortedMap κ ν :=
  ⟨insertEntry k v m.entries, sorted_insertEntry m.sorted⟩

/-- What `operator[]` does to the map: a missing key is inserted with the default value. -/
def touch (m : SortedMap κ ν) (k : κ) (dflt : ν) : SortedMap κ ν :=
  if (m.find? k).isSome then m else m.insert k dflt

@[simp] theorem find?_empty (k : κ) : (empty : SortedMap κ ν).find? k = none := rfl

@[simp] theorem find?_insert_self (m : SortedMap κ ν) (k : κ) (v : ν) :
    (m.insert k v).find? k = some v := by
  obtain ⟨es, hs⟩ := m
  simp only [insert, find?]
  clear hs
  induction es with
  | nil => simp [insertEntry]
  | cons d ds ih =>
    unfold insertEntry
    split
    · simp
    · split
      · simp
      · rename_i hne
        have hk : (k == d.1) = false := by simpa using hne
        rw [List.lookup_cons, hk]
        exact ih

theorem find?_insert_ne (m : SortedMap κ ν) {k k' : κ} (v : ν) (hne : k' ≠ k) :
    (m.insert k v).find? k' = m.find? k' := by
  obtain ⟨es, hs⟩ := m
  simp only [insert, find?]
  clear hs
  have hkk : (k' == k) = false := by simpa using hne
  induction es with
  | nil => simp [insertEntry, List.lookup_cons, hkk]
  | cons d ds ih =>
    unfold insertEntry
    split
    · rw [List.lookup_cons, hkk]
    · split
      · rename_i heq
        rw [List.lookup_cons, hkk, List.lookup_cons, ← heq, hkk]
      · rw [List.lookup_cons, List.lookup_cons, ih]

theorem find?_insert (m : SortedMap κ ν) (k k' : κ) (v : ν) :
    (m.insert k v).find? k' = if k' = k then some v else m.find? k' := by
  split
  · rename_i h
    subst h
    exact find?_insert_self m k' v
  · rename_i h
    exact find?_insert_ne m v h

theorem mem_entries_iff (m : SortedMap κ ν) {k : κ} {v : ν} :
    (k, v) ∈ m.entries ↔ m.find? k = some v := by
  obtain ⟨es, hs⟩ := m
  simp only [find?]
  induction es with
  | nil => simp
  | cons d ds ih =>
    obtain ⟨hd, hds⟩ := List.pairwise_cons.mp hs
    rw [List.lookup_cons, List.mem_cons]
    by_cases hk : k = d.1
    · subst hk
      have hnot : (d.1, v) ∉ ds := fun h => lt_irrefl d.1 (hd (d.1, v) h)
      simp only [hnot, or_false, beq_self_eq_true, Option.some.injEq]
      exact ⟨fun h => by rw [← h], fun h => by rw [← h]⟩
    · have hb : (k == d.1) = false := by simpa using hk
      rw [hb]
      have hne : (k, v) ≠ d := fun h => hk (congrArg Prod.fst h)
      simp only [hne, false_or]
      exact ih hds

end SortedMap
