import Mathlib.Algebra.BigOperators.Group.Finset.Basic
import Mathlib.Algebra.Order.BigOperators.Group.Finset
import Mathlib.Data.Set.Card
import DepTaint.Base.Containers

/-!
# AppendTree

A tree that grows by appending children only, as its nodes in order of creation, each with its
parent. The index of a node serves as an iterator: it stays valid while the tree grows.

* `mem_preorder`: the traversal visits every node.
* `Extends`: a tree that has grown looks the same at its old nodes.
* `Apart.length_le`: a list in which an element recurs only next to itself, over a finite set, is at
  most twice as long as the set is large.
-/

/-- The nodes with their parents; every parent is an earlier node, and only the first node has
none. -/
structure AppendTree (α : Type) where
  nodes : List (α × Option Nat)
  parent_lt : ∀ (i : Nat) x (j : Nat), nodes[i]? = some (x, some j) → j < i
  root_eq : ∀ (i : Nat) x, nodes[i]? = some (x, none) → i = 0

namespace AppendTree

variable {α : Type}

def size (t : AppendTree α) : Nat := t.nodes.length

def get? (t : AppendTree α) (i : Nat) : Option α := t.nodes[i]?.map Prod.fst

def parent (t : AppendTree α) (i : Nat) : Option Nat := t.nodes[i]?.bind Prod.snd

theorem parent_eq_some {t : AppendTree α} {i j : Nat} :
    t.parent i = some j ↔ ∃ x, t.nodes[i]? = some (x, some j) := by
  unfold parent
  cases t.nodes[i]? with
  | none => simp
  | some n => simp [Prod.ext_iff]

theorem lt_of_parent {t : AppendTree α} {i j : Nat} (h : t.parent i = some j) : j < i := by
  obtain ⟨x, hx⟩ := parent_eq_some.mp h
  exact t.parent_lt i x j hx

/-- The tree of one node. -/
def head (x : α) : AppendTree α where
  nodes := [(x, none)]
  parent_lt := by
    intro i y j h
    cases i <;> simp at h
  root_eq := by
    intro i y h
    cases i with
    | zero => rfl
    | succ i => simp at h

/-- Append a child to the node `p`, if there is one. -/
def appendChild (t : AppendTree α) (p : Nat) (x : α) : Option (AppendTree α) :=
  if hp : p < t.size then some {
    nodes := t.nodes ++ [(x, some p)]
    parent_lt := by
      intro i y j h
      rcases getElem?_snoc_iff.mp h with h | ⟨hi, h'⟩
      · exact t.parent_lt i y j h
      · cases h'
        rw [hi]
        exact hp
    root_eq := by
      intro i y h
      rcases getElem?_snoc_iff.mp h with h | ⟨_, h'⟩
      · exact t.root_eq i y h
      · cases h' }
  else none

/-- The proper ancestors, the parent first. -/
def ancestors (t : AppendTree α) (i : Nat) : List Nat :=
  match _h : t.parent i with
  | none => []
  | some j => j :: t.ancestors j
termination_by i
decreasing_by exact lt_of_parent _h

def depth (t : AppendTree α) (i : Nat) : Nat := (t.ancestors i).length

/-- The children of a node, in the order they were appended. -/
def children (t : AppendTree α) (i : Nat) : List Nat :=
  (List.range t.size).filter fun k => t.parent k = some i

/-- The first `n` levels of the subtree at `i`, in pre-order. -/
def preorderFrom (t : AppendTree α) : Nat → Nat → List Nat
  | 0, _ => []
  | n + 1, i => i :: (t.children i).flatMap (t.preorderFrom n)

/-- The nodes in pre-order; a tree has no more levels than nodes. -/
def preorder (t : AppendTree α) : List Nat :=
  if t.size = 0 then [] else t.preorderFrom t.size 0

/-! ## Nodes and their ancestors -/

section Nodes

variable {t : AppendTree α} {i j : Nat} {x : α}

theorem ancestors_of_none (h : t.parent i = none) : t.ancestors i = [] := by
  rw [ancestors]
  split
  · rfl
  · rename_i hj
    rw [h] at hj
    cases hj

theorem ancestors_of_parent (h : t.parent i = some j) : t.ancestors i = j :: t.ancestors j := by
  rw [ancestors]
  split
  · rename_i hn
    rw [h] at hn
    cases hn
  · rename_i k hk
    rw [h] at hk
    cases hk
    rfl

theorem get?_eq_some : t.get? i = some x ↔ ∃ p, t.nodes[i]? = some (x, p) := by
  simp [get?]

theorem lt_size_of_get? (h : t.get? i = some x) : i < t.size := by
  obtain ⟨p, hp⟩ := get?_eq_some.mp h
  exact (List.getElem?_eq_some_iff.mp hp).1

theorem exists_get? (h : i < t.size) : ∃ x, t.get? i = some x :=
  ⟨t.nodes[i].1, by simp [get?, List.getElem?_eq_getElem (l := t.nodes) h]⟩

theorem lt_size_of_parent (h : t.parent i = some j) : i < t.size := by
  obtain ⟨x, hx⟩ := parent_eq_some.mp h
  exact (List.getElem?_eq_some_iff.mp hx).1

/-- Every node but the first has a parent. -/
theorem exists_parent (hi : i < t.size) (h0 : i ≠ 0) : ∃ j, t.parent i = some j := by
  obtain ⟨x, hx⟩ := exists_get? hi
  obtain ⟨p, hp⟩ := get?_eq_some.mp hx
  cases p with
  | none => exact absurd (t.root_eq i x hp) h0
  | some j => exact ⟨j, parent_eq_some.mpr ⟨x, hp⟩⟩

theorem depth_of_parent (h : t.parent i = some j) : t.depth i = t.depth j + 1 := by
  rw [depth, ancestors_of_parent h, List.length_cons, depth]

theorem depth_le : ∀ i, t.depth i ≤ i := by
  intro i
  induction i using Nat.strong_induction_on with
  | _ i ih =>
    cases h : t.parent i with
    | none => simp [depth, ancestors_of_none h]
    | some j =>
      have hlt := lt_of_parent h
      have := ih j hlt
      rw [depth_of_parent h]
      omega

theorem mem_children : j ∈ t.children i ↔ t.parent j = some i := by
  simp only [children, List.mem_filter, List.mem_range, decide_eq_true_eq, and_iff_right_iff_imp]
  exact lt_size_of_parent

/-! ## The traversal -/

theorem mem_preorderFrom_child {n r : Nat} (hi : i ∈ t.preorderFrom n r)
    (hj : t.parent j = some i) : j ∈ t.preorderFrom (n + 1) r := by
  induction n generalizing r with
  | zero => cases hi
  | succ n ih =>
    rw [preorderFrom]
    refine List.mem_cons_of_mem _ (List.mem_flatMap.mpr ?_)
    rcases List.mem_cons.mp hi with rfl | hi
    · exact ⟨j, mem_children.mpr hj, List.mem_cons_self ..⟩
    · obtain ⟨c, hc, hi⟩ := List.mem_flatMap.mp hi
      exact ⟨c, hc, ih hi⟩

theorem preorderFrom_mono {m n : Nat} (h : m ≤ n) (r : Nat) :
    ∀ i ∈ t.preorderFrom m r, i ∈ t.preorderFrom n r := by
  induction n generalizing m r with
  | zero =>
    obtain rfl : m = 0 := by omega
    exact fun _ hi => hi
  | succ n ih =>
    intro i hi
    cases m with
    | zero => cases hi
    | succ m =>
      rcases List.mem_cons.mp hi with rfl | hi
      · exact List.mem_cons_self ..
      · obtain ⟨c, hc, hi⟩ := List.mem_flatMap.mp hi
        exact List.mem_cons_of_mem _
          (List.mem_flatMap.mpr ⟨c, hc, ih (Nat.le_of_succ_le_succ h) c i hi⟩)

theorem mem_preorderFrom_depth : ∀ i < t.size, i ∈ t.preorderFrom (t.depth i + 1) 0 := by
  intro i
  induction i using Nat.strong_induction_on with
  | _ i ih =>
    intro hi
    by_cases h0 : i = 0
    · subst h0
      exact List.mem_cons_self ..
    · obtain ⟨j, hj⟩ := exists_parent hi h0
      have hlt := lt_of_parent hj
      rw [depth_of_parent hj]
      exact mem_preorderFrom_child (ih j hlt (Nat.lt_trans hlt hi)) hj

/-- The traversal visits every node. -/
theorem mem_preorder (hi : i < t.size) : i ∈ t.preorder := by
  have hd := t.depth_le i
  rw [preorder, if_neg (by omega)]
  exact preorderFrom_mono (by omega) 0 i (mem_preorderFrom_depth i hi)

theorem mem_ancestors_lt (hj : j ∈ t.ancestors i) : j < i := by
  induction i using Nat.strong_induction_on with
  | _ i ih =>
    cases hp : t.parent i with
    | none =>
      rw [ancestors_of_none hp] at hj
      cases hj
    | some k =>
      have hlt := lt_of_parent hp
      rw [ancestors_of_parent hp] at hj
      rcases List.mem_cons.mp hj with rfl | hj
      · exact hlt
      · exact Nat.lt_trans (ih k hlt hj) hlt

/-- `i` is `r` or lies below it. -/
def IsBelow (t : AppendTree α) (r i : Nat) : Prop := r ∈ i :: t.ancestors i

theorem IsBelow.le {r : Nat} (h : t.IsBelow r i) : r ≤ i := by
  rcases List.mem_cons.mp h with rfl | h
  · exact Nat.le_refl _
  · exact Nat.le_of_lt (mem_ancestors_lt h)

theorem IsBelow.of_child {r c : Nat} (hc : t.parent c = some r) (h : t.IsBelow c i) :
    t.IsBelow r i := by
  induction i using Nat.strong_induction_on with
  | _ i ih =>
    rcases List.mem_cons.mp h with rfl | h
    · exact List.mem_cons_of_mem _ (by rw [ancestors_of_parent hc]; exact List.mem_cons_self ..)
    · cases hp : t.parent i with
      | none =>
        rw [ancestors_of_none hp] at h
        cases h
      | some k =>
        rw [ancestors_of_parent hp] at h
        have := ih k (lt_of_parent hp) h
        exact List.mem_cons_of_mem _ (by rw [ancestors_of_parent hp]; exact this)

/-- Siblings have no node below them in common. -/
theorem IsBelow.sibling_eq {r c c' : Nat} (hc : t.parent c = some r) (hc' : t.parent c' = some r)
    (h : t.IsBelow c i) (h' : t.IsBelow c' i) : c = c' := by
  induction i using Nat.strong_induction_on with
  | _ i ih =>
    have hroot : ∀ {a b : Nat}, t.parent a = some r → t.parent b = some r → t.IsBelow b a →
        b = a := by
      intro a b ha hb hab
      rcases List.mem_cons.mp hab with hab | hab
      · exact hab
      · -- a proper ancestor of `a` is `r` or above, and `b` is below `r`
        rw [ancestors_of_parent ha] at hab
        have hle : b ≤ r := IsBelow.le hab
        have hlt := lt_of_parent hb
        omega
    rcases List.mem_cons.mp h with rfl | hmem
    · exact (hroot hc hc' h').symm
    · rcases List.mem_cons.mp h' with rfl | hmem'
      · exact hroot hc' hc h
      · cases hp : t.parent i with
        | none =>
          rw [ancestors_of_none hp] at hmem
          cases hmem
        | some k =>
          rw [ancestors_of_parent hp] at hmem hmem'
          exact ih k (lt_of_parent hp) hmem hmem'

theorem isBelow_of_mem_preorderFrom {n r : Nat} (h : i ∈ t.preorderFrom n r) : t.IsBelow r i := by
  induction n generalizing r with
  | zero => cases h
  | succ n ih =>
    rcases List.mem_cons.mp h with rfl | h
    · exact List.mem_cons_self ..
    · obtain ⟨c, hc, hi⟩ := List.mem_flatMap.mp h
      exact (ih hi).of_child (mem_children.mp hc)

theorem nodup_children (t : AppendTree α) (i : Nat) : (t.children i).Nodup :=
  List.nodup_range.filter _

theorem nodup_preorderFrom (t : AppendTree α) (n r : Nat) : (t.preorderFrom n r).Nodup := by
  induction n generalizing r with
  | zero => exact List.nodup_nil
  | succ n ih =>
    rw [preorderFrom, List.nodup_cons, List.nodup_flatMap]
    refine ⟨fun hmem => ?_, fun c _ => ih c, ?_⟩
    · obtain ⟨c, hc, hr⟩ := List.mem_flatMap.mp hmem
      have hle := (isBelow_of_mem_preorderFrom hr).le
      have hlt := lt_of_parent (mem_children.mp hc)
      omega
    · refine (t.nodup_children r).imp_of_mem fun ha hb hne => ?_
      intro i hi hi'
      exact hne ((isBelow_of_mem_preorderFrom hi).sibling_eq (mem_children.mp ha)
        (mem_children.mp hb) (isBelow_of_mem_preorderFrom hi'))

/-- The traversal visits a node once. -/
theorem nodup_preorder (t : AppendTree α) : t.preorder.Nodup := by
  unfold preorder
  split
  · exact List.nodup_nil
  · exact t.nodup_preorderFrom t.size 0

theorem mem_preorderFrom_lt {n r : Nat} (hr : r < t.size) (h : i ∈ t.preorderFrom n r) :
    i < t.size := by
  induction n generalizing r with
  | zero => cases h
  | succ n ih =>
    rcases List.mem_cons.mp h with rfl | h
    · exact hr
    · obtain ⟨c, hc, hi⟩ := List.mem_flatMap.mp h
      exact ih (lt_size_of_parent (mem_children.mp hc)) hi

/-- The traversal visits exactly the nodes. -/
theorem mem_preorder_iff : i ∈ t.preorder ↔ i < t.size := by
  refine ⟨fun h => ?_, mem_preorder⟩
  unfold preorder at h
  split at h
  · cases h
  · exact mem_preorderFrom_lt (by omega) h

end Nodes

/-! ## Growth -/

/-- `t'` arises from `t` by appending children. -/
def Extends (t t' : AppendTree α) : Prop := t.nodes <+: t'.nodes

section Growth

variable {t t' t'' : AppendTree α} {i j p : Nat} {x : α}

theorem Extends.refl (t : AppendTree α) : Extends t t := List.prefix_refl _

theorem Extends.trans (h : Extends t t') (h' : Extends t' t'') : Extends t t'' :=
  List.IsPrefix.trans h h'

theorem Extends.nodes (h : Extends t t') (hi : i < t.size) : t'.nodes[i]? = t.nodes[i]? := by
  obtain ⟨l, hl⟩ := h
  rw [← hl, List.getElem?_append_left hi]

theorem Extends.size_le (h : Extends t t') : t.size ≤ t'.size := h.length_le

theorem Extends.get? (h : Extends t t') (hi : i < t.size) : t'.get? i = t.get? i := by
  rw [AppendTree.get?, h.nodes hi, AppendTree.get?]

theorem Extends.parent (h : Extends t t') (hi : i < t.size) : t'.parent i = t.parent i := by
  rw [AppendTree.parent, h.nodes hi, AppendTree.parent]

/-- Nodes keep their ancestors. -/
theorem Extends.ancestors (h : Extends t t') (hi : i < t.size) :
    t'.ancestors i = t.ancestors i := by
  induction i using Nat.strong_induction_on with
  | _ i ih =>
    cases hp : t.parent i with
    | none => rw [ancestors_of_none hp, ancestors_of_none ((h.parent hi).trans hp)]
    | some j =>
      have hlt := lt_of_parent hp
      rw [ancestors_of_parent hp, ancestors_of_parent ((h.parent hi).trans hp),
        ih j hlt (Nat.lt_trans hlt hi)]

/-- What appending a child does. -/
structure Appended (t : AppendTree α) (p : Nat) (x : α) (t' : AppendTree α) : Prop where
  grows : Extends t t'
  size : t'.size = t.size + 1
  get? : t'.get? t.size = some x
  parent : t'.parent t.size = some p

theorem Appended.lt_size (h : Appended t p x t') : t.size < t'.size := by
  rw [h.size]
  exact Nat.lt_succ_self _

/-- The nodes are the old ones and the child. -/
theorem Appended.lt_or_eq (h : Appended t p x t') (hi : i < t'.size) : i < t.size ∨ i = t.size := by
  rw [h.size] at hi
  exact Nat.lt_succ_iff_lt_or_eq.mp hi

/-- The child comes last among the children of `p`, and has none itself. -/
theorem Appended.children (h : Appended t p x t') (i : Nat) :
    t'.children i = t.children i ++ if i = p then [t.size] else [] := by
  have hold : ∀ k ∈ List.range t.size, t'.parent k = t.parent k := fun k hk =>
    h.grows.parent (List.mem_range.mp hk)
  unfold AppendTree.children
  rw [h.size, List.range_succ, List.filter_append]
  congr 1
  · exact List.filter_congr fun k hk => by rw [hold k hk]
  · by_cases hi : i = p
    · simp [h.parent, hi]
    · simp [h.parent, hi, Ne.symm hi]

theorem Appended.children_new (h : Appended t p x t') (hp : p < t.size) :
    t'.children t.size = [] := by
  rw [h.children, if_neg (by omega), List.append_nil]
  refine List.eq_nil_iff_forall_not_mem.mpr fun k hk => ?_
  have h1 := lt_of_parent (mem_children.mp hk)
  have h2 := lt_size_of_parent (mem_children.mp hk)
  omega

/-- The tree grows at `p` and below: of the old nodes only `p` may get children. -/
structure GrowsAt (t : AppendTree α) (p : Nat) (t' : AppendTree α) : Prop where
  grows : Extends t t'
  children : ∀ i < t.size, i ≠ p → t'.children i = t.children i

theorem GrowsAt.refl (t : AppendTree α) (p : Nat) : GrowsAt t p t := ⟨.refl t, fun _ _ _ => rfl⟩

theorem GrowsAt.trans (h : GrowsAt t p t') (h' : GrowsAt t' p t'') : GrowsAt t p t'' where
  grows := h.grows.trans h'.grows
  children := fun i hi hne =>
    (h'.children i (Nat.lt_of_lt_of_le hi h.grows.size_le) hne).trans (h.children i hi hne)

theorem Appended.growsAt (h : Appended t p x t') : GrowsAt t p t' where
  grows := h.grows
  children := fun i _ hne => by rw [h.children, if_neg hne, List.append_nil]

/-- What grows at the new child grows at its parent. -/
theorem Appended.growsAt_trans (h : Appended t p x t') (h' : GrowsAt t' t.size t'') :
    GrowsAt t p t'' where
  grows := h.grows.trans h'.grows
  children := fun i hi hne => by
    rw [h'.children i (by rw [h.size]; omega) (by omega), h.growsAt.children i hi hne]

theorem appendChild_spec (hp : p < t.size) (x : α) :
    ∃ t', t.appendChild p x = some t' ∧ Appended t p x t' := by
  refine ⟨_, by rw [appendChild, dif_pos hp], ⟨_, rfl⟩, ?_, ?_, ?_⟩
  · simp [AppendTree.size]
  · simp [AppendTree.get?, AppendTree.size]
  · simp [AppendTree.parent, AppendTree.size]

theorem appended_of_eq_some (h : t.appendChild p x = some t') : Appended t p x t' := by
  by_cases hp : p < t.size
  · obtain ⟨t1, ht1, happ⟩ := appendChild_spec hp x
    rw [h] at ht1
    exact Option.some.inj ht1 ▸ happ
  · rw [appendChild, dif_neg hp] at h
    cases h

end Growth

/-! ## Labels on the path to a node -/

section Path

variable {β : Type} {t t' : AppendTree α} {i j p : Nat} {x : α} {f : α → β}

/-- The labels of a node and its ancestors, upwards. -/
def path (f : α → β) (t : AppendTree α) (i : Nat) : List (Option β) :=
  (i :: t.ancestors i).map fun j => (t.get? j).map f

theorem Extends.path (h : Extends t t') (hi : i < t.size) : t'.path f i = t.path f i := by
  rw [AppendTree.path, h.ancestors hi, AppendTree.path]
  refine List.map_congr_left fun j hj => ?_
  rw [h.get?]
  rcases List.mem_cons.mp hj with rfl | hj
  · exact hi
  · exact Nat.lt_trans (mem_ancestors_lt hj) hi

theorem path_of_parent (h : t.parent i = some j) :
    t.path f i = (t.get? i).map f :: t.path f j := by
  rw [path, ancestors_of_parent h, List.map_cons, path]

theorem Appended.path (h : Appended t p x t') (hp : p < t.size) :
    t'.path f t.size = some (f x) :: t.path f p := by
  rw [path_of_parent h.parent, h.get?, h.grows.path hp]
  rfl

theorem length_path (f : α → β) (t : AppendTree α) (i : Nat) :
    (t.path f i).length = t.depth i + 1 := by
  rw [path, List.length_map, List.length_cons, depth]

/-- The labels on a path are those of nodes. -/
theorem mem_path {y : Option β} (hi : i < t.size) (hy : y ∈ t.path f i) :
    ∃ j x, t.get? j = some x ∧ y = some (f x) := by
  obtain ⟨j, hj, rfl⟩ := List.mem_map.mp hy
  have hlt : j < t.size := by
    rcases List.mem_cons.mp hj with rfl | hj
    · exact hi
    · exact Nat.lt_trans (mem_ancestors_lt hj) hi
  obtain ⟨x, hx⟩ := exists_get? hlt
  exact ⟨j, x, hx, by rw [hx]; rfl⟩

/-- The labels of the children, in order. -/
def childLabels (f : α → β) (t : AppendTree α) (i : Nat) : List (Option β) :=
  (t.children i).map fun c => (t.get? c).map f

theorem Extends.childLabels (h : Extends t t') (hc : t'.children i = t.children i) :
    t'.childLabels f i = t.childLabels f i := by
  unfold AppendTree.childLabels
  rw [hc]
  refine List.map_congr_left fun c hmem => ?_
  rw [h.get? (lt_size_of_parent (mem_children.mp hmem))]

theorem Appended.childLabels (h : Appended t p x t') :
    t'.childLabels f p = t.childLabels f p ++ [some (f x)] := by
  unfold AppendTree.childLabels
  rw [h.children, if_pos rfl, List.map_append, List.map_singleton, h.get?]
  congr 1
  refine List.map_congr_left fun c hmem => ?_
  rw [h.grows.get? (lt_size_of_parent (mem_children.mp hmem))]

end Path

/-! ## Shape and data -/

section Shape

variable {β : Type} {t : AppendTree α} {t' : AppendTree β} {i j : Nat} {x : α}

/-- What is left of a tree without its data. -/
def shape (t : AppendTree α) : List (Option Nat) := t.nodes.map Prod.snd

/-- The data in pre-order, as `begin()` and `++` enumerate it. -/
def traversal (t : AppendTree α) : List α := t.preorder.filterMap t.get?

/-- The tree without nodes. -/
def empty : AppendTree α where
  nodes := []
  parent_lt := fun _ _ _ h => by cases h
  root_eq := fun _ _ h => by cases h

theorem map_snd_modify (nodes : List (α × Option Nat)) (i : Nat) (x : α) (k : Nat) :
    (nodes.modify i fun n => (x, n.2))[k]?.map Prod.snd = nodes[k]?.map Prod.snd := by
  rw [List.getElem?_modify]
  cases nodes[k]? with
  | none => rfl
  | some n =>
    show some (if i = k then (x, n.2) else n).2 = some n.2
    split <;> rfl

/-- Overwrite the data of a node. -/
def setData (t : AppendTree α) (i : Nat) (x : α) : AppendTree α where
  nodes := t.nodes.modify i fun n => (x, n.2)
  parent_lt := by
    intro k y j h
    have hk := map_snd_modify t.nodes i x k
    rw [h] at hk
    obtain ⟨n, hn, he⟩ := Option.map_eq_some_iff.mp hk.symm
    exact t.parent_lt k n.1 j (hn.trans (congrArg some (Prod.ext rfl he)))
  root_eq := by
    intro k y h
    have hk := map_snd_modify t.nodes i x k
    rw [h] at hk
    obtain ⟨n, hn, he⟩ := Option.map_eq_some_iff.mp hk.symm
    exact t.root_eq k n.1 (hn.trans (congrArg some (Prod.ext rfl he)))

theorem parent_eq_shape (t : AppendTree α) (i : Nat) : t.parent i = t.shape[i]?.bind id := by
  rw [parent, shape, List.getElem?_map, Option.bind_map]
  rfl

theorem size_eq_shape (t : AppendTree α) : t.size = t.shape.length := by
  rw [size, shape, List.length_map]

/-- Trees of one shape are traversed alike. -/
theorem preorder_congr (h : t.shape = t'.shape) : t.preorder = t'.preorder := by
  have hsize : t.size = t'.size := by rw [size_eq_shape, size_eq_shape, h]
  have hchildren : t.children = t'.children := by
    funext i
    unfold children
    rw [hsize]
    exact List.filter_congr fun k _ => by rw [parent_eq_shape, parent_eq_shape, h]
  have hfrom : ∀ n i, t.preorderFrom n i = t'.preorderFrom n i := by
    intro n
    induction n with
    | zero => exact fun _ => rfl
    | succ n ih =>
      intro i
      rw [preorderFrom, preorderFrom, hchildren]
      congr 2
      exact funext ih
  rw [preorder, preorder, hsize, hfrom]

@[simp] theorem shape_setData (t : AppendTree α) (i : Nat) (x : α) :
    (t.setData i x).shape = t.shape := by
  unfold shape setData
  refine List.ext_getElem? fun k => ?_
  rw [List.getElem?_map, List.getElem?_map, map_snd_modify]

theorem get?_setData_self (hi : i < t.size) : (t.setData i x).get? i = some x := by
  obtain ⟨y, hy⟩ := exists_get? hi
  obtain ⟨p, hp⟩ := get?_eq_some.mp hy
  unfold get? setData
  rw [List.getElem?_modify, hp]
  simp

theorem get?_setData_of_ne (h : j ≠ i) : (t.setData i x).get? j = t.get? j := by
  unfold get? setData
  rw [List.getElem?_modify]
  cases t.nodes[j]? with
  | none => rfl
  | some n => exact congrArg (fun n : α × Option Nat => some n.1) (if_neg (Ne.symm h))

/-- Every node is enumerated with its data. -/
theorem map_some_traversal (t : AppendTree α) : t.traversal.map some = t.preorder.map t.get? := by
  have hall : ∀ i ∈ t.preorder, i < t.size := fun i hi => mem_preorder_iff.mp hi
  unfold traversal
  generalize t.preorder = l at hall
  induction l with
  | nil => rfl
  | cons i l ih =>
    obtain ⟨hi, hl⟩ := List.forall_mem_cons.mp hall
    obtain ⟨x, hx⟩ := exists_get? hi
    rw [List.filterMap_cons_some hx, List.map_cons, List.map_cons, ih hl, hx]

theorem length_traversal (t : AppendTree α) : t.traversal.length = t.preorder.length := by
  have := congrArg List.length t.map_some_traversal
  rwa [List.length_map, List.length_map] at this

theorem getElem?_traversal (t : AppendTree α) (k : Nat) :
    t.traversal[k]? = t.preorder[k]?.bind t.get? := by
  have h := congrArg (fun l : List (Option α) => l[k]?) t.map_some_traversal
  simp only [List.getElem?_map] at h
  cases hk : t.preorder[k]? with
  | none =>
    rw [hk] at h
    exact Option.map_eq_none_iff.mp h
  | some i =>
    rw [hk] at h
    obtain ⟨y, hy, he⟩ := Option.map_eq_some_iff.mp h
    exact hy.trans he

theorem mem_traversal : x ∈ t.traversal ↔ ∃ i, t.get? i = some x := by
  unfold traversal
  rw [List.mem_filterMap]
  constructor
  · intro h
    obtain ⟨i, _, hi⟩ := h
    exact ⟨i, hi⟩
  · intro h
    obtain ⟨i, hi⟩ := h
    exact ⟨i, mem_preorder (lt_size_of_get? hi), hi⟩

end Shape

end AppendTree

/-! ## Lists without distant repetitions -/

section Apart

variable {β : Type}

/-- An element recurs at distance one only. -/
def Apart : List β → Prop
  | [] => True
  | x :: l => x ∉ l.tail ∧ Apart l

theorem Apart.count_le [DecidableEq β] {l : List β} (h : Apart l) (y : β) : l.count y ≤ 2 := by
  induction l with
  | nil => simp
  | cons x l ih =>
    by_cases hxy : x = y
    · -- behind the first `y` at most the next element is `y`
      subst hxy
      have htail : l.tail.count x = 0 := List.count_eq_zero.mpr h.1
      cases l with
      | nil => simp
      | cons z l =>
        have hcons : (z :: l).count x ≤ l.count x + 1 := by
          rw [List.count_cons]
          split <;> omega
        rw [List.count_cons_self]
        simp only [List.tail_cons] at htail
        omega
    · rw [List.count_cons_of_ne hxy]
      exact ih h.2

/-- Over a finite set such a list is short. -/
theorem Apart.length_le {l : List β} {S : Set β} (h : Apart l) (hS : S.Finite)
    (hl : ∀ x ∈ l, x ∈ S) : l.length ≤ 2 * S.ncard := by
  classical
  have hsub : (l.toFinset : Set β) ⊆ S := fun x hx => hl x (by simpa using hx)
  calc l.length = ∑ x ∈ l.toFinset, l.count x := (List.sum_toFinset_count_eq_length l).symm
    _ ≤ l.toFinset.card • 2 := Finset.sum_le_card_nsmul _ _ _ fun x _ => h.count_le x
    _ = 2 * (l.toFinset : Set β).ncard := by
      rw [Set.ncard_coe_finset, Nat.mul_comm]
      rfl
    _ ≤ 2 * S.ncard := Nat.mul_le_mul_left 2 (Set.ncard_le_ncard hsub hS)

end Apart
