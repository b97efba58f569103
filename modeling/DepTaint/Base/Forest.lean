import Mathlib.Data.List.Nodup

/-!
# Forest

Ordered forests with labelled nodes, and forests with a hole.

A forest is its first tree, given by its root and the forest of the root's children, and the rest. A
context is the path from a hole to the outside, innermost frame first: the hole is the list of
children of a node, or what follows a node among its siblings.

* `exists_plug`: every node of a forest is at the front of a hole.
* `ids_plug`: the pre-order of a forest around a hole.
-/

inductive Forest (ι α : Type) where
  | nil
  | cons (id : ι) (data : α) (kids rest : Forest ι α)

namespace Forest

variable {ι κ α : Type}

/-- The nodes in pre-order. -/
def ids : Forest ι α → List ι
  | nil => []
  | cons id _ kids rest => id :: (kids.ids ++ rest.ids)

/-- The depth and the data of the nodes, in pre-order; `d` is the depth of the roots. -/
def outline : Forest ι α → Nat → List (Nat × α)
  | nil, _ => []
  | cons _ x kids rest, d => (d, x) :: (kids.outline (d + 1) ++ rest.outline d)

/-- The nodes in post-order. -/
def postorder : Forest ι α → List ι
  | nil => []
  | cons id _ kids rest => kids.postorder ++ id :: rest.postorder

/-- The roots, in order. -/
def roots : Forest ι α → List ι
  | nil => []
  | cons id _ _ rest => id :: rest.roots

/-- The first root, or `d`. -/
def first : Forest ι α → ι → ι
  | nil, d => d
  | cons id _ _ _, _ => id

/-- The last root, or `d`. -/
def last : Forest ι α → ι → ι
  | nil, d => d
  | cons id _ _ rest, _ => rest.last id

def append : Forest ι α → Forest ι α → Forest ι α
  | nil, g => g
  | cons id x kids rest, g => cons id x kids (rest.append g)

/-- Put a new tree of one node at the end. -/
def snoc (f : Forest ι α) (id : ι) (x : α) : Forest ι α := f.append (cons id x nil nil)

def mapIds (e : ι → κ) : Forest ι α → Forest κ α
  | nil => nil
  | cons id x kids rest => cons (e id) x (kids.mapIds e) (rest.mapIds e)

/-- The forest without its labels. -/
def shape (f : Forest ι α) : Forest Unit α := f.mapIds fun _ => ()

section Basic

variable {f g h : Forest ι α} {id a d : ι} {x : α}

@[simp] theorem ids_nil : (nil : Forest ι α).ids = [] := rfl

@[simp] theorem ids_cons : (cons id x f g).ids = id :: (f.ids ++ g.ids) := rfl

@[simp] theorem first_nil : (nil : Forest ι α).first d = d := rfl

@[simp] theorem first_cons : (cons id x f g).first d = id := rfl

@[simp] theorem last_nil : (nil : Forest ι α).last d = d := rfl

@[simp] theorem last_cons : (cons id x f g).last d = g.last id := rfl

@[simp] theorem roots_nil : (nil : Forest ι α).roots = [] := rfl

@[simp] theorem roots_cons : (cons id x f g).roots = id :: g.roots := rfl

@[simp] theorem nil_append : (nil : Forest ι α).append g = g := rfl

@[simp] theorem cons_append : (cons id x f g).append h = cons id x f (g.append h) := rfl

theorem append_assoc : (f.append g).append h = f.append (g.append h) := by
  induction f with
  | nil => rfl
  | cons id x kids rest _ ih => simp [ih]

@[simp] theorem append_nil : f.append nil = f := by
  induction f with
  | nil => rfl
  | cons id x kids rest _ ih => simp [ih]

@[simp] theorem ids_append : (f.append g).ids = f.ids ++ g.ids := by
  induction f with
  | nil => rfl
  | cons id x kids rest _ ih => simp [ih]

@[simp] theorem ids_snoc : (f.snoc a x).ids = f.ids ++ [a] := by simp [snoc]

@[simp] theorem last_append : (f.append g).last d = g.last (f.last d) := by
  induction f generalizing d with
  | nil => rfl
  | cons id x kids rest _ ih => simp [ih]

@[simp] theorem first_append : (f.append g).first d = f.first (g.first d) := by
  cases f <;> rfl

@[simp] theorem last_snoc : (f.snoc a x).last d = a := by simp [snoc]

@[simp] theorem first_snoc : (f.snoc a x).first d = f.first a := by simp [snoc]

@[simp] theorem roots_append : (f.append g).roots = f.roots ++ g.roots := by
  induction f with
  | nil => rfl
  | cons id x kids rest _ ih => simp [ih]

theorem last_mem : f.last d = d ∨ f.last d ∈ f.ids := by
  induction f generalizing d with
  | nil => exact .inl rfl
  | cons id x kids rest _ ih =>
    rcases ih (d := id) with h | h
    · exact .inr (by simp [h])
    · exact .inr (by simp [h])

theorem last_mem_of_ne (h : f ≠ nil) : f.last d ∈ f.ids := by
  cases f with
  | nil => exact absurd rfl h
  | cons id x kids rest =>
    rcases last_mem (f := rest) (d := id) with h | h
    · simp [h]
    · simp [h]

theorem last_eq_of_ne (h : f ≠ nil) (d d' : ι) : f.last d = f.last d' := by
  cases f with
  | nil => exact absurd rfl h
  | cons id x kids rest => rfl

theorem postorder_perm : f.postorder.Perm f.ids := by
  induction f with
  | nil => exact .nil
  | cons id x kids rest ihk ihr => exact List.perm_middle.trans ((ihk.append ihr).cons id)

theorem shape_cons : (cons id x f g).shape = cons () x f.shape g.shape := rfl

end Basic

/-- Forests of one shape have the same outline. -/
theorem outline_eq_of_shape {f : Forest ι α} {g : Forest κ α} (h : f.shape = g.shape) (d : Nat) :
    f.outline d = g.outline d := by
  induction f generalizing g d with
  | nil =>
    cases g with
    | nil => rfl
    | cons => cases h
  | cons id x kids rest ihk ihr =>
    cases g with
    | nil => cases h
    | cons id' y kids' rest' =>
      rw [shape_cons, shape_cons] at h
      injection h with _ hx hk hr
      rw [outline, outline, hx, ihk hk, ihr hr]

/-! ## Contexts -/

/-- One step from a hole to the outside. -/
inductive Frame (ι α : Type) where
  /-- The hole is the list of children of `id`. -/
  | below (id : ι) (data : α) (rest : Forest ι α)
  /-- The hole is what follows `id` among its siblings. -/
  | beside (id : ι) (data : α) (kids : Forest ι α)

def Frame.fill : Frame ι α → Forest ι α → Forest ι α
  | .below id x rest, g => cons id x g rest
  | .beside id x kids, g => cons id x kids g

/-- The node of a frame. -/
def Frame.label : Frame ι α → ι
  | .below id _ _ => id
  | .beside id _ _ => id

/-- The part of a frame that is not the hole. -/
def Frame.side : Frame ι α → Forest ι α
  | .below _ _ rest => rest
  | .beside _ _ kids => kids

abbrev Context (ι α : Type) := List (Frame ι α)

def plug : Context ι α → Forest ι α → Forest ι α
  | [], g => g
  | fr :: C, g => plug C (fr.fill g)

/-- The nodes before the hole, in pre-order. -/
def before : Context ι α → List ι
  | [] => []
  | .below id _ _ :: C => before C ++ [id]
  | .beside id _ kids :: C => before C ++ id :: kids.ids

/-- The nodes after the hole, in pre-order. -/
def after : Context ι α → List ι
  | [] => []
  | .below _ _ rest :: C => rest.ids ++ after C
  | .beside _ _ _ :: C => after C

/-- The nodes before and after the hole, in post-order. -/
def postBefore : Context ι α → List ι
  | [] => []
  | .below _ _ _ :: C => postBefore C
  | .beside id _ kids :: C => postBefore C ++ (kids.postorder ++ [id])

def postAfter : Context ι α → List ι
  | [] => []
  | .below id _ rest :: C => id :: (rest.postorder ++ postAfter C)
  | .beside _ _ _ :: C => postAfter C

/-- The nodes around the hole. -/
def around (C : Context ι α) : List ι := before C ++ after C

section Contexts

variable {C D : Context ι α} {f g : Forest ι α} {id a : ι} {x : α}

@[simp] theorem plug_nil : plug [] g = g := rfl

@[simp] theorem plug_below : plug (.below id x f :: C) g = plug C (cons id x g f) := rfl

@[simp] theorem plug_beside : plug (.beside id x f :: C) g = plug C (cons id x f g) := rfl

theorem plug_append : plug (C ++ D) g = plug D (plug C g) := by
  induction C generalizing g with
  | nil => rfl
  | cons fr C ih => exact ih

/-- Every node is at the front of a hole. -/
theorem exists_plug (h : a ∈ f.ids) : ∃ C x kids rest, f = plug C (cons a x kids rest) := by
  induction f with
  | nil => cases h
  | cons id y kids rest ihk ihr =>
    rcases List.mem_cons.mp h with rfl | h
    · exact ⟨[], y, kids, rest, rfl⟩
    · rcases List.mem_append.mp h with h | h
      · obtain ⟨C, x, k, r, hf⟩ := ihk h
        exact ⟨C ++ [.below id y rest], x, k, r, by rw [plug_append, ← hf]; rfl⟩
      · obtain ⟨C, x, k, r, hf⟩ := ihr h
        exact ⟨C ++ [.beside id y kids], x, k, r, by rw [plug_append, ← hf]; rfl⟩

theorem ids_plug : (plug C g).ids = before C ++ g.ids ++ after C := by
  induction C generalizing g with
  | nil => simp [before, after]
  | cons fr C ih =>
    cases fr with
    | below id x rest => simp [ih, before, after]
    | beside id x kids => simp [ih, before, after]

theorem postorder_plug : (plug C g).postorder = postBefore C ++ g.postorder ++ postAfter C := by
  induction C generalizing g with
  | nil => simp [postBefore, postAfter]
  | cons fr C ih =>
    cases fr with
    | below id x rest => simp [ih, postBefore, postAfter, postorder]
    | beside id x kids => simp [ih, postBefore, postAfter, postorder]

theorem ids_plug_perm : (plug C g).ids.Perm (around C ++ g.ids) := by
  rw [ids_plug, around, List.append_assoc, List.append_assoc]
  exact List.perm_append_comm.append_left (before C)

theorem mem_ids_plug : a ∈ (plug C g).ids ↔ a ∈ around C ∨ a ∈ g.ids := by
  rw [ids_plug_perm.mem_iff, List.mem_append]

theorem around_cons_perm {fr : Frame ι α} :
    (around (fr :: C)).Perm (fr.label :: (fr.side.ids ++ around C)) := by
  classical
  rw [List.perm_iff_count]
  intro b
  cases fr with
  | below id x rest =>
    simp only [around, before, after, Frame.label, Frame.side, List.count_append, List.count_cons,
      List.count_nil]
    omega
  | beside id x kids =>
    simp only [around, before, after, Frame.label, Frame.side, List.count_append, List.count_cons]
    omega

theorem mem_around_cons {fr : Frame ι α} :
    a ∈ around (fr :: C) ↔ a = fr.label ∨ a ∈ fr.side.ids ∨ a ∈ around C := by
  rw [around_cons_perm.mem_iff, List.mem_cons, List.mem_append]

theorem roots_plug {g' : Forest ι α} (h : g.roots = g'.roots) :
    (plug C g).roots = (plug C g').roots := by
  induction C generalizing g g' with
  | nil => exact h
  | cons fr C ih =>
    apply ih
    cases fr with
    | below id x rest => rfl
    | beside id x kids => exact congrArg (id :: ·) h

/-- The position after the trees `f`. -/
def along : Forest ι α → Context ι α → Context ι α
  | nil, C => C
  | cons id x kids rest, C => along rest (.beside id x kids :: C)

theorem plug_along : plug (along f C) g = plug C (f.append g) := by
  induction f generalizing C with
  | nil => rfl
  | cons id x kids rest _ ih => rw [along, ih, plug_beside, cons_append]

/-- The nodes on the path from the hole to the outside. -/
def ancestorsOf : Context ι α → List ι
  | [] => []
  | .below id _ _ :: C => id :: ancestorsOf C
  | .beside _ _ _ :: C => ancestorsOf C

/-! ### Properties of all nodes -/

/-- `P` holds of every node, its data and its children. -/
def Every (P : ι → α → List ι → Prop) : Forest ι α → Prop
  | nil => True
  | cons id x kids rest => P id x kids.roots ∧ Every P kids ∧ Every P rest

variable {P Q : ι → α → List ι → Prop}

theorem Every.imp (h : f.Every P) (hPQ : ∀ a x l, a ∈ f.ids → P a x l → Q a x l) : f.Every Q := by
  induction f with
  | nil => trivial
  | cons id x kids rest ihk ihr =>
    obtain ⟨hid, hk, hr⟩ := h
    refine ⟨hPQ id x _ (by simp) hid, ihk hk fun a y l ha => hPQ a y l ?_,
      ihr hr fun a y l ha => hPQ a y l ?_⟩
    · simp [ha]
    · simp [ha]

theorem Every.append (hf : f.Every P) (hg : g.Every P) : (f.append g).Every P := by
  induction f with
  | nil => exact hg
  | cons id x kids rest _ ih => exact ⟨hf.1, hf.2.1, ih hf.2.2⟩

theorem Every.of_plug (h : (plug C g).Every P) : g.Every P := by
  induction C generalizing g with
  | nil => exact h
  | cons fr C ih =>
    have hfill := ih h
    cases fr with
    | below id x rest => exact hfill.2.1
    | beside id x kids => exact hfill.2.2

/-- What is put in a hole has the roots of what was there. -/
theorem Every.plug {g' : Forest ι α} (h : (plug C g).Every P) (hroots : g'.roots = g.roots)
    (hg : g'.Every Q) (hPQ : ∀ a x l, a ∈ around C → P a x l → Q a x l) :
    (Forest.plug C g').Every Q := by
  induction C generalizing g g' with
  | nil => exact hg
  | cons fr C ih =>
    have hC : ∀ a x l, a ∈ around C → P a x l → Q a x l :=
      fun a x l ha => hPQ a x l (mem_around_cons.mpr (.inr (.inr ha)))
    have hside : ∀ a x l, a ∈ fr.side.ids → P a x l → Q a x l :=
      fun a x l ha => hPQ a x l (mem_around_cons.mpr (.inr (.inl ha)))
    have hlabel : ∀ x l, P fr.label x l → Q fr.label x l :=
      fun x l => hPQ fr.label x l (mem_around_cons.mpr (.inl rfl))
    cases fr with
    | below id x rest =>
      obtain ⟨hid, _, hrest⟩ := Every.of_plug (C := C) (g := cons id x g rest) h
      refine ih (g := cons id x g rest) h rfl ⟨?_, hg, hrest.imp hside⟩ hC
      rw [hroots]
      exact hlabel x _ hid
    | beside id x kids =>
      obtain ⟨hid, hkids, _⟩ := Every.of_plug (C := C) (g := cons id x kids g) h
      have hroots' : (cons id x kids g').roots = (cons id x kids g).roots := by
        rw [roots_cons, roots_cons, hroots]
      exact ih (g := cons id x kids g) h hroots' ⟨hlabel x _ hid, hkids.imp hside, hg⟩ hC

end Contexts

end Forest
