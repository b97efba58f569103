import DepTaint.Base.Forest
import DepTaint.TreeNodes

/-!
# TreeLinks

What the nodes of a `tree` are linked to: `Represents m t f` says that in the memory `m` the tree `t`
holds the forest `f`, whose labels are the addresses of the nodes.

An operation of `tree.hh` works at one position. `Focus` splits what is represented there: the links
of the nodes around the position, and those of the nodes from the position on.

* `represents_plug`: the two parts make up the whole.
* `ContextLinks.left`, `ContextLinks.right`: what the operations assign to put something else at the
  position.
* `Updates`: what an operation does to memory, as other trees see it.
-/

namespace DepTaint
namespace Tree

open Forest

abbrev Cells (α : Type) := Ptr → Option (TreeNode α)

variable {α : Type}

/-- The siblings `f` are children of `par` and stand between `prev` and `next`. -/
def Links (m : Cells α) : Ptr → Ptr → Ptr → Forest Ptr α → Prop
  | _, _, _, .nil => True
  | par, prev, next, .cons a x kids rest =>
    m a = some {
      parent := par, firstChild := kids.first 0, lastChild := kids.last 0
      prevSibling := prev, nextSibling := rest.first next, data := x } ∧
    Links m a 0 0 kids ∧ Links m par a next rest

/-- `head` and `feet`. -/
def Sentinels (m : Cells α) (t : Tree) (first last : Ptr) : Prop :=
  (∃ x, m t.head = some { nextSibling := first, data := x }) ∧
    ∃ x, m t.feet = some { prevSibling := last, data := x }

/-- The addresses of a tree. -/
def footprint (t : Tree) (f : Forest Ptr α) : List Ptr := t.head :: t.feet :: f.ids

structure Represents (m : Cells α) (t : Tree) (f : Forest Ptr α) : Prop where
  sentinels : Sentinels m t (f.first t.feet) (f.last t.head)
  links : Links m 0 t.head t.feet f
  nodup : (0 :: t.footprint f).Nodup

/-! ## Around a position -/

/-- The parent of the nodes in a hole, and what stands before and after them; the top nodes are
between `head` and `feet`, other siblings between null and null. -/
def parentAt : Context Ptr α → Ptr
  | [] => 0
  | .below id _ _ :: _ => id
  | .beside _ _ _ :: C => parentAt C

def prevAt (t : Tree) : Context Ptr α → Ptr
  | [] => t.head
  | .below _ _ _ :: _ => 0
  | .beside id _ _ :: _ => id

def nextAt (t : Tree) : Context Ptr α → Ptr
  | [] => t.feet
  | .below _ _ _ :: _ => 0
  | .beside _ _ _ :: C => t.nextAt C

/-- The links of the nodes around a hole whose first and last nodes are `first` and `last`. -/
def ContextLinks (m : Cells α) (t : Tree) : Context Ptr α → Ptr → Ptr → Prop
  | [], first, last => Sentinels m t first last
  | .below id x rest :: C, first, last =>
    m id = some {
      parent := parentAt C, firstChild := first, lastChild := last
      prevSibling := t.prevAt C, nextSibling := rest.first (t.nextAt C), data := x } ∧
    Links m (parentAt C) id (t.nextAt C) rest ∧ ContextLinks m t C id (rest.last id)
  | .beside id x kids :: C, first, last =>
    m id = some {
      parent := parentAt C, firstChild := kids.first 0, lastChild := kids.last 0
      prevSibling := t.prevAt C, nextSibling := first, data := x } ∧
    Links m id 0 0 kids ∧ ContextLinks m t C id last

/-- The addresses around a hole. -/
def ring (t : Tree) (C : Context Ptr α) : List Ptr := t.head :: t.feet :: around C

structure Focus (m : Cells α) (t : Tree) (C : Context Ptr α) (g : Forest Ptr α) : Prop where
  context : ContextLinks m t C (g.first (t.nextAt C)) (g.last (t.prevAt C))
  hole : Links m (parentAt C) (t.prevAt C) (t.nextAt C) g
  nodup_ring : (0 :: t.ring C).Nodup
  nodup_ids : g.ids.Nodup
  apart : ∀ a ∈ g.ids, a ∉ 0 :: t.ring C

section Lemmas

variable {m m' : Cells α} {t : Tree} {C : Context Ptr α} {f g kids rest : Forest Ptr α}
  {par prev next a b id first last : Ptr} {x : α} {v : Option (TreeNode α)}

@[simp] theorem links_nil : Links m par prev next .nil := trivial

theorem links_cons : Links m par prev next (.cons a x kids rest) ↔
    m a = some {
      parent := par, firstChild := kids.first 0, lastChild := kids.last 0
      prevSibling := prev, nextSibling := rest.first next, data := x } ∧
    Links m a 0 0 kids ∧ Links m par a next rest := Iff.rfl

theorem ring_cons_perm {fr : Frame Ptr α} :
    (t.ring (fr :: C)).Perm (fr.label :: (fr.side.ids ++ t.ring C)) := by
  rw [List.perm_iff_count]
  intro b
  have hperm : (around (fr :: C)).Perm (fr.label :: (fr.side.ids ++ around C)) := around_cons_perm
  have h := hperm.count_eq b
  simp only [List.count_append, List.count_cons] at h
  simp only [ring, List.count_append, List.count_cons]
  omega

theorem mem_ring_cons {fr : Frame Ptr α} :
    b ∈ t.ring (fr :: C) ↔ b = fr.label ∨ b ∈ fr.side.ids ∨ b ∈ t.ring C := by
  rw [ring_cons_perm.mem_iff, List.mem_cons, List.mem_append]

theorem head_mem_ring : t.head ∈ t.ring C := List.mem_cons_self ..

theorem feet_mem_ring : t.feet ∈ t.ring C := List.mem_cons_of_mem _ (List.mem_cons_self ..)

/-- What is known of the addresses of a frame. -/
theorem nodup_ring_cons {fr : Frame Ptr α} (h : (0 :: t.ring (fr :: C)).Nodup) :
    fr.label ≠ 0 ∧ fr.label ∉ fr.side.ids ∧ fr.label ∉ t.ring C ∧ fr.side.ids.Nodup ∧
      (∀ a ∈ fr.side.ids, a ∉ 0 :: t.ring C) ∧ (0 :: t.ring C).Nodup := by
  have h' : (0 :: fr.label :: (fr.side.ids ++ t.ring C)).Nodup :=
    ((ring_cons_perm.cons 0).nodup_iff).mp h
  simp only [List.nodup_cons, List.nodup_append, List.mem_cons, List.mem_append, not_or] at h'
  obtain ⟨⟨h0, h0s, h0r⟩, ⟨hs, hr⟩, hside, hring, hdisj⟩ := h'
  refine ⟨fun hx => h0 hx.symm, hs, hr, hside, fun a ha hx => ?_, List.nodup_cons.mpr ⟨h0r, hring⟩⟩
  rcases List.mem_cons.mp hx with rfl | hx
  · exact h0s ha
  · exact hdisj a ha a hx rfl

@[simp] theorem parentAt_nil : parentAt ([] : Context Ptr α) = 0 := rfl

@[simp] theorem parentAt_below : parentAt (.below id x f :: C) = id := rfl

@[simp] theorem parentAt_beside : parentAt (.beside id x f :: C) = parentAt C := rfl

@[simp] theorem prevAt_nil : t.prevAt ([] : Context Ptr α) = t.head := rfl

@[simp] theorem prevAt_below : t.prevAt (.below id x f :: C) = 0 := rfl

@[simp] theorem prevAt_beside : t.prevAt (.beside id x f :: C) = id := rfl

@[simp] theorem nextAt_nil : t.nextAt ([] : Context Ptr α) = t.feet := rfl

@[simp] theorem nextAt_below : t.nextAt (.below id x f :: C) = 0 := rfl

@[simp] theorem nextAt_beside : t.nextAt (.beside id x f :: C) = t.nextAt C := rfl

@[simp] theorem parentAt_along : parentAt (along f C) = parentAt C := by
  induction f generalizing C with
  | nil => rfl
  | cons a x kids rest _ ih => exact ih

@[simp] theorem prevAt_along : t.prevAt (along f C) = f.last (t.prevAt C) := by
  induction f generalizing C with
  | nil => rfl
  | cons a x kids rest _ ih => exact ih

@[simp] theorem nextAt_along : t.nextAt (along f C) = t.nextAt C := by
  induction f generalizing C with
  | nil => rfl
  | cons a x kids rest _ ih => exact ih

/-! ### Frames -/

theorem Links.congr (h : Links m par prev next f) (hm : ∀ b ∈ f.ids, m' b = m b) :
    Links m' par prev next f := by
  induction f generalizing par prev next with
  | nil => trivial
  | cons a x kids rest ihk ihr =>
    obtain ⟨ha, hk, hr⟩ := h
    refine ⟨?_, ihk hk fun b hb => hm b ?_, ihr hr fun b hb => hm b ?_⟩
    · rw [hm a (by simp)]
      exact ha
    · simp [hb]
    · simp [hb]

theorem Links.update (h : Links m par prev next f) (ha : a ∉ f.ids) :
    Links (Function.update m a v) par prev next f := by
  refine h.congr fun b hb => Function.update_of_ne ?_ _ _
  rintro rfl
  exact ha hb

theorem ContextLinks.congr (h : ContextLinks m t C first last) (hm : ∀ b ∈ t.ring C, m' b = m b) :
    ContextLinks m' t C first last := by
  induction C generalizing first last with
  | nil =>
    obtain ⟨⟨x, hx⟩, y, hy⟩ := h
    refine ⟨⟨x, ?_⟩, y, ?_⟩
    · rw [hm _ head_mem_ring]
      exact hx
    · rw [hm _ feet_mem_ring]
      exact hy
  | cons fr C ih =>
    have hC : ∀ b ∈ t.ring C, m' b = m b := fun b hb => hm b (mem_ring_cons.mpr (.inr (.inr hb)))
    have hside : ∀ b ∈ fr.side.ids, m' b = m b :=
      fun b hb => hm b (mem_ring_cons.mpr (.inr (.inl hb)))
    have hlabel : m' fr.label = m fr.label := hm _ (mem_ring_cons.mpr (.inl rfl))
    cases fr with
    | below id x rest =>
      obtain ⟨hid, hr, hrest⟩ := h
      exact ⟨hlabel.trans hid, hr.congr hside, ih hrest hC⟩
    | beside id x kids =>
      obtain ⟨hid, hk, hrest⟩ := h
      exact ⟨hlabel.trans hid, hk.congr hside, ih hrest hC⟩

theorem ContextLinks.update (h : ContextLinks m t C first last) (ha : a ∉ t.ring C) :
    ContextLinks (Function.update m a v) t C first last := by
  refine h.congr fun b hb => Function.update_of_ne ?_ _ _
  rintro rfl
  exact ha hb

/-- The two parts of what is represented make up the whole. -/
theorem links_plug : Sentinels m t ((plug C g).first t.feet) ((plug C g).last t.head) ∧
      Links m 0 t.head t.feet (plug C g) ↔
    ContextLinks m t C (g.first (t.nextAt C)) (g.last (t.prevAt C)) ∧
      Links m (parentAt C) (t.prevAt C) (t.nextAt C) g := by
  induction C generalizing g with
  | nil => rfl
  | cons fr C ih =>
    cases fr with
    | below id x rest =>
      rw [plug_below, ih, links_cons, ContextLinks]
      simp only [first_cons, last_cons, prevAt, nextAt, parentAt]
      tauto
    | beside id x kids =>
      rw [plug_beside, ih, links_cons, ContextLinks]
      simp only [first_cons, last_cons, prevAt, nextAt, parentAt]
      tauto

theorem represents_plug : Represents m t (plug C g) ↔ Focus m t C g := by
  have hnodup : (0 :: t.footprint (plug C g)).Nodup ↔
      (0 :: t.ring C).Nodup ∧ g.ids.Nodup ∧ ∀ a ∈ g.ids, a ∉ 0 :: t.ring C := by
    have hperm : (0 :: t.footprint (plug C g)).Perm ((0 :: t.ring C) ++ g.ids) :=
      ((ids_plug_perm.cons t.feet).cons t.head).cons 0
    rw [hperm.nodup_iff, List.nodup_append']
    refine and_congr_right fun _ => and_congr_right fun _ => ?_
    exact ⟨fun h a ha hx => h hx ha, fun h a hx ha => h a ha hx⟩
  constructor
  · intro h
    obtain ⟨hC, hg⟩ := links_plug.mp ⟨h.sentinels, h.links⟩
    obtain ⟨h1, h2, h3⟩ := hnodup.mp h.nodup
    exact ⟨hC, hg, h1, h2, h3⟩
  · intro h
    obtain ⟨hs, hl⟩ := links_plug.mpr ⟨h.context, h.hole⟩
    exact ⟨hs, hl, hnodup.mpr ⟨h.nodup_ring, h.nodup_ids, h.apart⟩⟩

theorem parentAt_mem_ring (h : t.prevAt C = 0 ∨ t.nextAt C = 0) (hnd : (0 :: t.ring C).Nodup) :
    parentAt C ∈ t.ring C := by
  induction C with
  | nil =>
    rcases h with h | h
    · exact absurd (h ▸ head_mem_ring) (List.nodup_cons.mp hnd).1
    · exact absurd (h ▸ feet_mem_ring) (List.nodup_cons.mp hnd).1
  | cons fr C ih =>
    obtain ⟨hlabel, _, _, _, _, hC⟩ := nodup_ring_cons hnd
    cases fr with
    | below id x rest => exact mem_ring_cons.mpr (.inl rfl)
    | beside id x kids =>
      rcases h with h | h
      · exact absurd h hlabel
      · exact mem_ring_cons.mpr (.inr (.inr (ih (.inr h) hC)))

/-! ### The links of a context to its hole -/

/-- The link to the front of the hole is in the node before it or, if there is none, in the
parent. -/
theorem ContextLinks.left (h : ContextLinks m t C first last) (hnd : (0 :: t.ring C).Nodup) :
    (t.prevAt C = 0 → ∃ n, m (parentAt C) = some n ∧ n.firstChild = first ∧ ∀ first',
      ContextLinks (Function.update m (parentAt C) (some { n with firstChild := first' }))
        t C first' last) ∧
    (t.prevAt C ≠ 0 → t.prevAt C ∈ t.ring C ∧ ∃ n, m (t.prevAt C) = some n ∧
      n.nextSibling = first ∧ ∀ first',
        ContextLinks (Function.update m (t.prevAt C) (some { n with nextSibling := first' }))
          t C first' last) := by
  cases C with
  | nil =>
    obtain ⟨⟨x, hx⟩, y, hy⟩ := h
    have hne : t.feet ≠ t.head := by
      intro he
      simp [ring, he] at hnd
    refine ⟨fun h0 => absurd (h0 ▸ head_mem_ring) (List.nodup_cons.mp hnd).1, fun _ => ?_⟩
    refine ⟨head_mem_ring, _, hx, rfl, fun first' => ⟨⟨x, ?_⟩, y, ?_⟩⟩
    · simp [prevAt]
    · rw [prevAt, Function.update_of_ne hne]
      exact hy
  | cons fr C =>
    obtain ⟨hlabel, hside, hring, _, _, _⟩ := nodup_ring_cons hnd
    cases fr with
    | below id x rest =>
      obtain ⟨hid, hr, hC⟩ := h
      refine ⟨fun _ => ⟨_, hid, rfl, fun first' => ⟨?_, hr.update hside, hC.update hring⟩⟩,
        fun h0 => absurd rfl h0⟩
      simp [parentAt]
    | beside id x kids =>
      obtain ⟨hid, hk, hC⟩ := h
      refine ⟨fun h0 => absurd h0 hlabel, fun _ => ⟨mem_ring_cons.mpr (.inl rfl), _, hid, rfl,
        fun first' => ⟨?_, hk.update hside, hC.update hring⟩⟩⟩
      simp [prevAt]

/-- The link to the back of the hole is in the node after it or, if there is none, in the parent. -/
theorem ContextLinks.right (h : ContextLinks m t C first last) (hnd : (0 :: t.ring C).Nodup) :
    (t.nextAt C = 0 → ∃ n, m (parentAt C) = some n ∧ n.lastChild = last ∧ ∀ last',
      ContextLinks (Function.update m (parentAt C) (some { n with lastChild := last' }))
        t C first last') ∧
    (t.nextAt C ≠ 0 → t.nextAt C = t.feet ∧ ∃ n, m t.feet = some n ∧ n.prevSibling = last ∧
      ∀ last', ContextLinks (Function.update m t.feet (some { n with prevSibling := last' }))
        t C first last') := by
  induction C generalizing first last with
  | nil =>
    obtain ⟨⟨x, hx⟩, y, hy⟩ := h
    have hne : t.head ≠ t.feet := by
      intro he
      simp [ring, he] at hnd
    refine ⟨fun h0 => absurd (h0 ▸ feet_mem_ring) (List.nodup_cons.mp hnd).1, fun _ => ?_⟩
    refine ⟨rfl, _, hy, rfl, fun last' => ⟨⟨x, ?_⟩, y, ?_⟩⟩
    · rw [Function.update_of_ne hne]
      exact hx
    · simp
  | cons fr C ih =>
    obtain ⟨hlabel, hside, hring, _, hapart, hnd'⟩ := nodup_ring_cons hnd
    cases fr with
    | below id x rest =>
      obtain ⟨hid, hr, hC⟩ := h
      refine ⟨fun _ => ⟨_, hid, rfl, fun last' => ⟨?_, hr.update hside, hC.update hring⟩⟩,
        fun h0 => absurd rfl h0⟩
      simp [parentAt]
    | beside id x kids =>
      obtain ⟨hid, hk, hC⟩ := h
      obtain ⟨hzero, hfeet⟩ := ih hC hnd'
      have hkeep : ∀ {b v}, b ∈ t.ring C →
          Function.update m b v id = m id ∧ Links (Function.update m b v) id 0 0 kids := by
        intro b v hb
        refine ⟨Function.update_of_ne ?_ _ _, hk.update fun hx => ?_⟩
        · rintro rfl
          exact hring hb
        · exact hapart b hx (List.mem_cons_of_mem _ hb)
      constructor
      · intro h0
        obtain ⟨n, hn, hlast, hset⟩ := hzero h0
        have hmem : parentAt C ∈ t.ring C := parentAt_mem_ring (.inr h0) hnd'
        exact ⟨n, hn, hlast, fun last' =>
          ⟨(hkeep hmem).1.trans hid, (hkeep hmem).2, hset last'⟩⟩
      · intro h0
        obtain ⟨heq, n, hn, hlast, hset⟩ := hfeet h0
        exact ⟨heq, n, hn, hlast, fun last' =>
          ⟨(hkeep feet_mem_ring).1.trans hid, (hkeep feet_mem_ring).2, hset last'⟩⟩

end Lemmas

end Tree
end DepTaint
