import DepTaint.Base.Worklist
import DepTaint.TreeLinks

/-!
# TreeUpdates

What the operations of `tree.hh` that add nodes do to the represented forest.

All of them put a new node at the front of a hole. `Focus.left_step` and `Focus.right_step` are the
two assignments that link a neighbour, or the parent, to what is put there.
-/

namespace DepTaint

namespace NodeHeap

variable {α : Type} {h : NodeHeap α} {a b : Ptr} {n : TreeNode α}

@[simp] theorem cells_put : (h.put a n).cells = Function.update h.cells a (some n) := rfl

@[simp] theorem cells_remove : (h.remove a).cells = Function.update h.cells a none := rfl

theorem read_eq (ha : a ≠ 0) (hn : h.cells a = some n) : h.read a = .ok n := by
  simp [read, ha, hn]

theorem modify_eq (ha : a ≠ 0) (hn : h.cells a = some n) (f : TreeNode α → TreeNode α) :
    h.modify a f = .ok (h.put a (f n)) := by
  simp only [modify, read_eq ha hn, bind, Except.bind]

theorem dealloc_eq (ha : a ≠ 0) (hn : h.cells a = some n) : h.dealloc a = .ok (h.remove a) := by
  simp only [dealloc, read_eq ha hn, bind, Except.bind]

theorem cells_allocate (A : Allocator) : h.cells (A.allocate h.live) = none := by
  have hfresh := A.fresh h.live
  rw [h.mem_live] at hfresh
  simpa using hfresh

end NodeHeap

theorem treeAssert_true {p : Prop} [Decidable p] (hp : p) : treeAssert (decide p) = .ok () := by
  simp [treeAssert, hp]

namespace Tree

open Forest

variable {α : Type} {m m' : Cells α} {h h' : NodeHeap α} {t : Tree} {C : Context Ptr α}
  {f f' g g' kids rest : Forest Ptr α} {par prev next a b p first last : Ptr} {x y : α}

/-! ## The nodes of a tree are there -/

theorem Links.isSome (h : Links m par prev next f) : ∀ b ∈ f.ids, (m b).isSome = true := by
  induction f generalizing par prev next with
  | nil => simp
  | cons a x kids rest ihk ihr =>
    obtain ⟨ha, hk, hr⟩ := h
    intro b hb
    rcases List.mem_cons.mp hb with rfl | hb
    · rw [ha]
      rfl
    · rcases List.mem_append.mp hb with hb | hb
      · exact ihk hk b hb
      · exact ihr hr b hb

theorem Represents.isSome (h : Represents m t f) : ∀ b ∈ t.footprint f, (m b).isSome = true := by
  obtain ⟨⟨⟨x, hx⟩, y, hy⟩, hl, _⟩ := h
  intro b hb
  rcases List.mem_cons.mp hb with rfl | hb
  · rw [hx]
    rfl
  · rcases List.mem_cons.mp hb with rfl | hb
    · rw [hy]
      rfl
    · exact hl.isSome b hb

theorem mem_footprint_plug : b ∈ t.footprint (plug C g) ↔ b ∈ t.ring C ∨ b ∈ g.ids := by
  simp only [footprint, ring, List.mem_cons, mem_ids_plug]
  tauto

theorem Focus.isSome (h : Focus m t C g) (hb : b ∈ t.ring C ∨ b ∈ g.ids) :
    (m b).isSome = true :=
  (represents_plug.mpr h).isSome b (mem_footprint_plug.mpr hb)

/-- The same forest, seen from another position. -/
theorem Focus.reframe {D : Context Ptr α} (h : Focus m t C g) (heq : plug C g = plug D g') :
    Focus m t D g' :=
  represents_plug.mp (heq ▸ represents_plug.mpr h)

theorem Represents.ne_zero (h : Represents m t f) (hb : b ∈ t.footprint f) : b ≠ 0 := by
  rintro rfl
  exact (List.nodup_cons.mp h.nodup).1 hb

theorem Focus.ne_zero (h : Focus m t C g) (hb : b ∈ t.ring C ∨ b ∈ g.ids) : b ≠ 0 :=
  (represents_plug.mpr h).ne_zero (mem_footprint_plug.mpr hb)

theorem Represents.congr (h : Represents m t f) (hm : ∀ b ∈ t.footprint f, m' b = m b) :
    Represents m' t f := by
  obtain ⟨⟨⟨x, hx⟩, y, hy⟩, hl, hnd⟩ := h
  refine ⟨⟨⟨x, ?_⟩, y, ?_⟩, hl.congr fun b hb => hm b (by simp [footprint, hb]), hnd⟩
  · rw [hm _ (by simp [footprint])]
    exact hx
  · rw [hm _ (by simp [footprint])]
    exact hy

theorem Focus.congr (h : Focus m t C g) (hm : ∀ b, b ∈ t.ring C ∨ b ∈ g.ids → m' b = m b) :
    Focus m' t C g :=
  represents_plug.mp ((represents_plug.mpr h).congr fun b hb => hm b (mem_footprint_plug.mp hb))

/-! ## What an operation does to memory -/

/-- An operation on the tree `t` that makes the forest `f'` of `f`: it only takes addresses that were
free, gives back those it does not use any more, and leaves the rest of memory as it is. -/
structure Updates (h h' : NodeHeap α) (t : Tree) (f f' : Forest Ptr α) : Prop where
  represents : Represents h'.cells t f'
  fresh : ∀ b ∈ f'.ids, b ∉ f.ids → h.cells b = none
  freed : ∀ b ∈ f.ids, b ∉ f'.ids → h'.cells b = none
  frame : ∀ b, b ∉ t.footprint f → b ∉ f'.ids → h'.cells b = h.cells b

theorem Updates.refl (h0 : Represents h.cells t f) : Updates h h t f f :=
  ⟨h0, fun _ hb hn => absurd hb hn, fun _ hb hn => absurd hb hn, fun _ _ _ => rfl⟩

theorem Updates.trans {h1 h2 : NodeHeap α} {f1 f2 : Forest Ptr α} (hu : Updates h h1 t f f1)
    (hu' : Updates h1 h2 t f1 f2) : Updates h h2 t f f2 where
  represents := hu'.represents
  fresh b hb hn := by
    by_cases hb1 : b ∈ f1.ids
    · exact hu.fresh b hb1 hn
    · have hfoot : b ∉ t.footprint f := by
        have hnd := hu'.represents.nodup
        simp only [footprint, List.nodup_cons, List.mem_cons, not_or] at hnd
        simp only [footprint, List.mem_cons, not_or]
        refine ⟨?_, ?_, hn⟩
        · rintro rfl
          exact hnd.2.1.2 hb
        · rintro rfl
          exact hnd.2.2.1 hb
      rw [← hu.frame b hfoot hb1]
      exact hu'.fresh b hb hb1
  freed b hb hn := by
    by_cases hb1 : b ∈ f1.ids
    · exact hu'.freed b hb1 hn
    · have hfoot : b ∉ t.footprint f1 := by
        intro hx
        have hsome := hu.represents.isSome b hx
        rw [hu.freed b hb hb1] at hsome
        cases hsome
      rw [hu'.frame b hfoot hn]
      exact hu.freed b hb hb1
  frame b hb hn := by
    by_cases hb1 : b ∈ f1.ids
    · rw [hu'.freed b hb1 hn, hu.fresh b hb1 fun hx => hb (by simp [footprint, hx])]
    · have hfoot : b ∉ t.footprint f1 := by
        simp only [footprint, List.mem_cons, not_or] at hb ⊢
        exact ⟨hb.1, hb.2.1, hb1⟩
      rw [hu'.frame b hfoot hn, hu.frame b hb hb1]

/-- What an operation does at one position. -/
theorem Focus.updates (h1 : Focus h'.cells t C g')
    (hfresh : ∀ b ∈ g'.ids, b ∉ g.ids → h.cells b = none)
    (hfreed : ∀ b ∈ g.ids, b ∉ g'.ids → h'.cells b = none)
    (hframe : ∀ b, b ∉ t.ring C → b ∉ g.ids → b ∉ g'.ids → h'.cells b = h.cells b) :
    Updates h h' t (plug C g) (plug C g') where
  represents := represents_plug.mpr h1
  fresh b hb hn := by
    rw [mem_ids_plug] at hb hn
    rw [not_or] at hn
    exact hfresh b (hb.resolve_left hn.1) hn.2
  freed b hb hn := by
    rw [mem_ids_plug] at hb hn
    rw [not_or] at hn
    exact hfreed b (hb.resolve_left hn.1) hn.2
  frame b hb hn := by
    rw [mem_footprint_plug, not_or] at hb
    rw [mem_ids_plug, not_or] at hn
    exact hframe b hb.1 hb.2 hn.2

/-! ## The two assignments -/

theorem parentAt_ne_zero (hnd : (0 :: t.ring C).Nodup)
    (h0 : t.prevAt C = 0 ∨ t.nextAt C = 0) : parentAt C ≠ 0 := by
  intro hx
  exact (List.nodup_cons.mp hnd).1 (hx ▸ parentAt_mem_ring h0 hnd)

theorem parentAt_eq_zero (hnext : t.nextAt C ≠ 0) : parentAt C = 0 := by
  induction C with
  | nil => rfl
  | cons fr C ih =>
    cases fr with
    | below id x rest => exact absurd rfl hnext
    | beside id x kids => exact ih hnext

/-- Link what stands before the hole to `a`. -/
def linkLeft (h : NodeHeap α) (par prev a : Ptr) : Except TreeFault (NodeHeap α) :=
  if prev = 0 then h.modify par fun n => { n with firstChild := a }
  else h.modify prev fun n => { n with nextSibling := a }

/-- Link what stands after the hole to `a`. -/
def linkRight (h : NodeHeap α) (par next a : Ptr) : Except TreeFault (NodeHeap α) :=
  if next = 0 then h.modify par fun n => { n with lastChild := a }
  else h.modify next fun n => { n with prevSibling := a }

theorem left_step (hC : ContextLinks h.cells t C first last) (hnd : (0 :: t.ring C).Nodup)
    (a : Ptr) : ∃ h', linkLeft h (parentAt C) (t.prevAt C) a = .ok h' ∧
      ContextLinks h'.cells t C a last ∧ ∀ b ∉ t.ring C, h'.cells b = h.cells b := by
  obtain ⟨hzero, hsucc⟩ := hC.left hnd
  unfold linkLeft
  by_cases hprev : t.prevAt C = 0
  · obtain ⟨n, hn, _, hset⟩ := hzero hprev
    have hmem : parentAt C ∈ t.ring C := parentAt_mem_ring (.inl hprev) hnd
    rw [if_pos hprev, NodeHeap.modify_eq (parentAt_ne_zero hnd (.inl hprev)) hn]
    refine ⟨_, rfl, hset a, fun b hb => Function.update_of_ne ?_ _ _⟩
    rintro rfl
    exact hb hmem
  · obtain ⟨hmem, n, hn, _, hset⟩ := hsucc hprev
    rw [if_neg hprev, NodeHeap.modify_eq hprev hn]
    refine ⟨_, rfl, hset a, fun b hb => Function.update_of_ne ?_ _ _⟩
    rintro rfl
    exact hb hmem

theorem right_step (hC : ContextLinks h.cells t C first (g.last prev))
    (hg : Links h.cells (parentAt C) prev (t.nextAt C) g) (hnd : (0 :: t.ring C).Nodup)
    (hids : g.ids.Nodup) (hapart : ∀ a ∈ g.ids, a ∉ 0 :: t.ring C) (a : Ptr) :
    ∃ h', linkRight h (parentAt C) (g.first (t.nextAt C)) a = .ok h' ∧
      ContextLinks h'.cells t C first (g.last a) ∧
      Links h'.cells (parentAt C) a (t.nextAt C) g ∧
      ∀ b, b ∉ t.ring C → b ∉ g.ids → h'.cells b = h.cells b := by
  unfold linkRight
  cases g with
  | nil =>
    obtain ⟨hzero, hsucc⟩ := hC.right hnd
    by_cases hnext : t.nextAt C = 0
    · obtain ⟨n, hn, _, hset⟩ := hzero hnext
      have hmem : parentAt C ∈ t.ring C := parentAt_mem_ring (.inr hnext) hnd
      rw [first_nil, if_pos hnext, NodeHeap.modify_eq (parentAt_ne_zero hnd (.inr hnext)) hn]
      refine ⟨_, rfl, hset a, links_nil, fun b hb _ => Function.update_of_ne ?_ _ _⟩
      rintro rfl
      exact hb hmem
    · obtain ⟨hfeet, n, hn, _, hset⟩ := hsucc hnext
      rw [first_nil, if_neg hnext, hfeet, NodeHeap.modify_eq (hfeet ▸ hnext) hn]
      refine ⟨_, rfl, hset a, links_nil, fun b hb _ => Function.update_of_ne ?_ _ _⟩
      rintro rfl
      exact hb feet_mem_ring
  | cons c x kids rest =>
    obtain ⟨hc, hk, hr⟩ := hg
    have hc0 : c ≠ 0 := fun h0 => hapart c (by simp) (by simp [h0])
    have hring : c ∉ t.ring C := fun hx => hapart c (by simp) (by simp [hx])
    simp only [ids_cons, List.nodup_cons, List.mem_append, not_or] at hids
    rw [first_cons, if_neg hc0, NodeHeap.modify_eq hc0 hc]
    refine ⟨_, rfl, hC.update hring, ⟨?_, hk.update hids.1.1, hr.update hids.1.2⟩,
      fun b _ hb => Function.update_of_ne ?_ _ _⟩
    · simp
    · rintro rfl
      exact hb (by simp)

/-- The node at the front of a hole, or `feet`. -/
theorem Focus.front (h : Focus m t C g) (hnext : g.first (t.nextAt C) ≠ 0) :
    ∃ n, m (g.first (t.nextAt C)) = some n ∧ n.parent = parentAt C ∧ n.prevSibling = t.prevAt C := by
  cases g with
  | nil =>
    rw [first_nil] at hnext ⊢
    obtain ⟨hfeet, n, hn, hlast, _⟩ := (h.context.right h.nodup_ring).2 hnext
    rw [hfeet, parentAt_eq_zero hnext]
    have hsent : ∀ {C : Context Ptr α} {first last}, ContextLinks m t C first last →
        ∃ last x, m t.feet = some { prevSibling := last, data := x } := by
      intro C
      induction C with
      | nil => exact fun hC => ⟨_, hC.2⟩
      | cons fr C ih =>
        cases fr with
        | below => exact fun hC => ih hC.2.2
        | beside => exact fun hC => ih hC.2.2
    obtain ⟨last, x, hx⟩ := hsent h.context
    rw [hx] at hn
    cases hn
    exact ⟨_, hx, rfl, hlast⟩
  | cons c x kids rest => exact ⟨_, h.hole.1, rfl, rfl⟩

/-- A new node at the front of the hole. -/
theorem Focus.insert (h0 : Focus h.cells t C g) (hfresh : h.cells a = none) (ha : a ≠ 0)
    (hC : ContextLinks h'.cells t C a (g.last a))
    (hg : Links h'.cells (parentAt C) a (t.nextAt C) g)
    (hnode : h'.cells a = some {
      parent := parentAt C, prevSibling := t.prevAt C, nextSibling := g.first (t.nextAt C), data := x })
    (hframe : ∀ b, b ∉ t.ring C → b ∉ g.ids → b ≠ a → h'.cells b = h.cells b) :
    Focus h'.cells t C (.cons a x .nil g) ∧
      Updates h h' t (plug C g) (plug C (.cons a x .nil g)) := by
  have hnot : ¬ (a ∈ t.ring C ∨ a ∈ g.ids) := by
    intro hx
    have hsome := h0.isSome hx
    rw [hfresh] at hsome
    cases hsome
  rw [not_or] at hnot
  have hfocus : Focus h'.cells t C (.cons a x .nil g) := by
    refine ⟨hC, ⟨hnode, links_nil, hg⟩, h0.nodup_ring, ?_, fun b hb => ?_⟩
    · simpa using ⟨hnot.2, h0.nodup_ids⟩
    · rcases List.mem_cons.mp hb with rfl | hb
      · simpa using ⟨ha, hnot.1⟩
      · exact h0.apart b (by simpa using hb)
  refine ⟨hfocus, hfocus.updates (fun b hb hn => ?_) (fun b hb hn => ?_) fun b hb hn hn' => ?_⟩
  · obtain rfl | hb := List.mem_cons.mp hb
    · exact hfresh
    · exact absurd (by simpa using hb) hn
  · exact absurd (by simp [hb]) hn
  · exact hframe b hb hn (by rintro rfl; exact hn' (by simp))

/-! ## The operations that add a node -/

section Insertions

variable (A : Allocator)

/-- A fresh address, in use for a node with nothing linked to it. -/
theorem Focus.alloc (h0 : Focus h.cells t C g) (n : TreeNode α) :
    Focus (h.put (A.allocate h.live) n).cells t C g ∧ A.allocate h.live ∉ t.ring C ∧
      A.allocate h.live ∉ g.ids := by
  have hnot : ¬ (A.allocate h.live ∈ t.ring C ∨ A.allocate h.live ∈ g.ids) := by
    intro hx
    have hsome := h0.isSome hx
    rw [NodeHeap.cells_allocate] at hsome
    cases hsome
  refine ⟨h0.congr fun b hb => Function.update_of_ne ?_ _ _, not_or.mp hnot⟩
  rintro rfl
  exact hnot hb

theorem linkPrev_eq {n : TreeNode α} (ha : a ≠ 0) (hn : h.cells a = some n)
    (hpar : n.prevSibling = 0 → n.parent ≠ 0) :
    linkPrev h a = linkLeft h n.parent n.prevSibling a := by
  simp only [linkPrev, linkLeft, NodeHeap.read_eq ha hn, bind, Except.bind]
  split
  · rename_i hprev
    rw [if_pos (hpar hprev)]
  · rfl

/-- A new node that is linked to its neighbours, which are then linked to it. -/
theorem Focus.attach (h0 : Focus h.cells t C g) (hfresh : h.cells a = none) (ha : a ≠ 0)
    {h2 : NodeHeap α} (hcells : h2.cells = Function.update h.cells a (some {
      parent := parentAt C, prevSibling := t.prevAt C, nextSibling := g.first (t.nextAt C)
      data := x })) :
    (∃ h3 h4, linkRight h2 (parentAt C) (g.first (t.nextAt C)) a = .ok h3 ∧
      h3.cells a = h2.cells a ∧ linkLeft h3 (parentAt C) (t.prevAt C) a = .ok h4 ∧
      Focus h4.cells t C (.cons a x .nil g) ∧
      Updates h h4 t (plug C g) (plug C (.cons a x .nil g))) ∧
    ∃ h3 h4, linkLeft h2 (parentAt C) (t.prevAt C) a = .ok h3 ∧ h3.cells a = h2.cells a ∧
      linkRight h3 (parentAt C) (g.first (t.nextAt C)) a = .ok h4 ∧
      Focus h4.cells t C (.cons a x .nil g) ∧
      Updates h h4 t (plug C g) (plug C (.cons a x .nil g)) := by
  have hring : a ∉ t.ring C := fun hx => by
    have hsome := h0.isSome (.inl hx)
    rw [hfresh] at hsome
    cases hsome
  have hids : a ∉ g.ids := fun hx => by
    have hsome := h0.isSome (.inr hx)
    rw [hfresh] at hsome
    cases hsome
  have hapart : ∀ b ∈ g.ids, b ∉ t.ring C :=
    fun b hb hx => h0.apart b hb (List.mem_cons_of_mem _ hx)
  have hC2 : ContextLinks h2.cells t C (g.first (t.nextAt C)) (g.last (t.prevAt C)) := by
    rw [hcells]
    exact h0.context.update hring
  have hg2 : Links h2.cells (parentAt C) (t.prevAt C) (t.nextAt C) g := by
    rw [hcells]
    exact h0.hole.update hids
  have hnode : h2.cells a = some {
      parent := parentAt C, prevSibling := t.prevAt C, nextSibling := g.first (t.nextAt C)
      data := x } := by
    rw [hcells]
    simp
  have hframe2 : ∀ b, b ≠ a → h2.cells b = h.cells b := by
    intro b hb
    rw [hcells, Function.update_of_ne hb]
  constructor
  · obtain ⟨h3, hr, hC3, hg3, hframe3⟩ :=
      right_step hC2 hg2 h0.nodup_ring h0.nodup_ids h0.apart a
    obtain ⟨h4, hl, hC4, hframe4⟩ := left_step hC3 h0.nodup_ring a
    have ha3 : h3.cells a = h2.cells a := hframe3 a hring hids
    refine ⟨h3, h4, hr, ha3, hl, h0.insert hfresh ha hC4 ?_ ?_ fun b hb hb' hba => ?_⟩
    · exact hg3.congr fun b hb => hframe4 b (hapart b hb)
    · rw [hframe4 a hring, ha3, hnode]
    · rw [hframe4 b hb, hframe3 b hb hb', hframe2 b hba]
  · obtain ⟨h3, hl, hC3, hframe3⟩ := left_step hC2 h0.nodup_ring a
    have hg3 : Links h3.cells (parentAt C) (t.prevAt C) (t.nextAt C) g :=
      hg2.congr fun b hb => hframe3 b (hapart b hb)
    obtain ⟨h4, hr, hC4, hg4, hframe4⟩ :=
      right_step hC3 hg3 h0.nodup_ring h0.nodup_ids h0.apart a
    have ha3 : h3.cells a = h2.cells a := hframe3 a hring
    refine ⟨h3, h4, hl, ha3, hr, h0.insert hfresh ha hC4 hg4 ?_ fun b hb hb' hba => ?_⟩
    · rw [hframe4 a hring hids, ha3, hnode]
    · rw [hframe4 b hb hb', hframe3 b hb, hframe2 b hba]

theorem insert_spec (h0 : Focus h.cells t C g) (hnext : g.first (t.nextAt C) ≠ 0) (x : α) :
    ∃ h' a, t.insert A h (g.first (t.nextAt C)) x = .ok (h', a) ∧
      Focus h'.cells t C (.cons a x .nil g) ∧
      Updates h h' t (plug C g) (plug C (.cons a x .nil g)) := by
  obtain ⟨p, hp, hparent, hprev⟩ := h0.front hnext
  have hfresh : h.cells (A.allocate h.live) = none := NodeHeap.cells_allocate A
  have ha : A.allocate h.live ≠ 0 := A.ne_null _
  have hpa : g.first (t.nextAt C) ≠ A.allocate h.live := by
    intro he
    rw [he, hfresh] at hp
    cases hp
  simp only [Tree.insert, if_neg hnext, NodeHeap.alloc]
  generalize A.allocate h.live = a at hfresh ha hpa ⊢
  have hread : (h.put a { data := x }).read (g.first (t.nextAt C)) = .ok p :=
    NodeHeap.read_eq hnext (by simp [hpa, hp])
  have hmodify := NodeHeap.modify_eq (h := h.put a { data := x }) (n := { data := x }) ha (by simp)
    fun n => { n with
      firstChild := 0, lastChild := 0, parent := p.parent, nextSibling := g.first (t.nextAt C)
      prevSibling := p.prevSibling }
  simp only [hread, hmodify, bind, Except.bind]
  rw [hparent, hprev]
  generalize hh2 : ((h.put a { data := x }).put a _) = h2
  have hcells : h2.cells = Function.update h.cells a (some {
      parent := parentAt C, prevSibling := t.prevAt C
      nextSibling := g.first (t.nextAt C), data := x }) := by
    rw [← hh2]
    simp
  obtain ⟨h3, h4, hr, ha3, hl, hfocus, hupdates⟩ := (h0.attach hfresh ha hcells).1
  rw [linkRight, if_neg hnext] at hr
  have hlink := linkPrev_eq ha (by rw [ha3, hcells]; exact Function.update_self ..)
    fun hx => parentAt_ne_zero h0.nodup_ring (.inl hx)
  exact ⟨h4, a, by simp only [hr, hlink, hl], hfocus, hupdates⟩

theorem insertAfter_spec (h0 : Focus h.cells t C (.cons p y kids rest)) (x : α) :
    ∃ h' a, insertAfter A h p x = .ok (h', a) ∧
      Focus h'.cells t C (.cons p y kids (.cons a x .nil rest)) ∧
      Updates h h' t (plug C (.cons p y kids rest)) (plug C (.cons p y kids (.cons a x .nil rest))) := by
  -- the position after `p`
  have h1 : Focus h.cells t (.beside p y kids :: C) rest := h0.reframe rfl
  have hp0 : p ≠ 0 := h0.ne_zero (.inr (by simp))
  have hfresh : h.cells (A.allocate h.live) = none := NodeHeap.cells_allocate A
  have ha : A.allocate h.live ≠ 0 := A.ne_null _
  have hp := h0.hole.1
  have hpa : p ≠ A.allocate h.live := by
    intro he
    rw [he, hfresh] at hp
    cases hp
  simp only [insertAfter, NodeHeap.alloc]
  generalize A.allocate h.live = a at hfresh ha hpa ⊢
  have hread := NodeHeap.read_eq (h := h.put a { data := x }) hp0 (by
    rw [NodeHeap.cells_put, Function.update_of_ne hpa]
    exact hp)
  have hmodify := NodeHeap.modify_eq (h := h.put a { data := x }) (n := { data := x }) ha (by simp)
    fun n => { n with
      firstChild := 0, lastChild := 0, parent := parentAt C, prevSibling := p
      nextSibling := rest.first (t.nextAt C) }
  simp only [hread, hmodify, bind, Except.bind]
  generalize hh2 : ((h.put a { data := x }).put a _) = h2
  have hcells : h2.cells = Function.update h.cells a (some {
      parent := parentAt C, prevSibling := p, nextSibling := rest.first (t.nextAt C)
      data := x }) := by
    rw [← hh2]
    simp
  obtain ⟨h3, h4, hl, ha3, hr, hfocus, hupdates⟩ := (h1.attach hfresh ha hcells).2
  simp only [prevAt_beside, nextAt_beside, parentAt_beside] at hl hr
  rw [linkLeft, if_neg hp0] at hl
  have hread3 := NodeHeap.read_eq ha (by
    rw [ha3, hcells]
    exact Function.update_self ..)
  refine ⟨h4, a, ?_, hfocus.reframe rfl, hupdates⟩
  simp only [hl, hread3]
  rw [linkRight] at hr
  by_cases hnext : rest.first (t.nextAt C) = 0
  · rw [if_pos hnext] at hr
    have hpar : parentAt C ≠ 0 := by
      refine parentAt_ne_zero h0.nodup_ring (.inr ?_)
      cases rest with
      | nil => exact hnext
      | cons c z k r => exact absurd hnext (h0.ne_zero (.inr (by simp)))
    rw [if_pos hnext, if_pos hpar, hr]
  · rw [if_neg hnext] at hr
    rw [if_neg hnext, hr]

/-- The end of the children of `p`. -/
theorem Focus.end_children (h0 : Focus m t C (.cons p y kids rest)) :
    Focus m t (along kids (.below p y rest :: C)) .nil :=
  h0.reframe (by rw [plug_along, append_nil, plug_below])

theorem Focus.assertPosition (h0 : Focus m t C (.cons p y kids rest)) :
    t.assertPosition p = .ok () := by
  have hring : p ∉ t.ring C := fun hx => h0.apart p (by simp) (List.mem_cons_of_mem _ hx)
  refine treeAssert_true ⟨?_, ?_, h0.ne_zero (.inr (by simp))⟩
  · rintro rfl
    exact hring head_mem_ring
  · rintro rfl
    exact hring feet_mem_ring

theorem appendChild_spec (h0 : Focus h.cells t C (.cons p y kids rest)) (x : α) :
    ∃ h' a, t.appendChild A h p x = .ok (h', a) ∧
      Focus h'.cells t C (.cons p y (kids.snoc a x) rest) ∧
      Updates h h' t (plug C (.cons p y kids rest)) (plug C (.cons p y (kids.snoc a x) rest)) := by
  have h1 : Focus h.cells t (along kids (.below p y rest :: C)) .nil := h0.end_children
  have hp0 : p ≠ 0 := h0.ne_zero (.inr (by simp))
  have hfresh : h.cells (A.allocate h.live) = none := NodeHeap.cells_allocate A
  have ha : A.allocate h.live ≠ 0 := A.ne_null _
  have hring := (h1.alloc A { data := x }).2.1
  simp only [Tree.appendChild, h0.assertPosition, NodeHeap.alloc]
  generalize A.allocate h.live = a at hfresh ha hring ⊢
  have hmodify := NodeHeap.modify_eq (h := h.put a { data := x }) (n := { data := x }) ha (by simp)
    fun n => { n with firstChild := 0, lastChild := 0, parent := p }
  simp only [hmodify, bind, Except.bind]
  generalize hh2 : ((h.put a { data := x }).put a _) = h2
  have hcells : h2.cells = Function.update h.cells a (some { parent := p, data := x }) := by
    rw [← hh2]
    simp
  have hnd := h1.nodup_ring
  have hC2 : ContextLinks h2.cells t (along kids (.below p y rest :: C)) 0 (kids.last 0) := by
    have hC := h1.context.update hring (v := some { parent := p, data := x })
    rw [← hcells] at hC
    simpa using hC
  obtain ⟨n2, hn2, hlast2, _⟩ := (hC2.right hnd).1 (by simp)
  -- the link from the last child, or from the parent
  obtain ⟨h3, hl, hC3, hframe3⟩ := left_step hC2 hnd a
  obtain ⟨n3, hn3, hlast3, _⟩ := (hC3.right hnd).1 (by simp)
  simp only [parentAt_along, prevAt_along, parentAt_below, prevAt_below] at hn2 hn3 hl
  have hleft : (if n2.lastChild ≠ 0 then
      h2.modify n2.lastChild fun n => { n with nextSibling := a }
      else h2.modify p fun n => { n with firstChild := a }) = .ok h3 := by
    rw [← hl, linkLeft, hlast2]
    by_cases hlast : kids.last 0 = 0
    · simp [hlast]
    · simp [hlast]
  have ha3 : h3.cells a = some { parent := p, data := x } := by
    rw [hframe3 a hring, hcells]
    simp
  have hmodify3 := NodeHeap.modify_eq ha ha3 fun n => { n with prevSibling := n3.lastChild }
  rw [hlast3] at hmodify3
  have hC4 : ContextLinks (h3.put a { parent := p, prevSibling := kids.last 0, data := x }).cells t
      (along kids (.below p y rest :: C)) a (kids.last 0) := hC3.update hring
  -- the link from the parent to its last child
  obtain ⟨h5, hr, hC5, _, hframe5⟩ := right_step (g := .nil) hC4 links_nil hnd List.nodup_nil
    (by simp) a
  simp only [parentAt_along, nextAt_along, parentAt_below, nextAt_below, first_nil, linkRight, if_true] at hr
  have ha5 : h5.cells a = some { parent := p, prevSibling := kids.last 0, data := x } := by
    rw [hframe5 a hring (by simp)]
    simp
  have hmodify5 := NodeHeap.modify_eq ha ha5 fun n => { n with nextSibling := 0 }
  have hC6 := hC5.update hring (v := some { parent := p, prevSibling := kids.last 0, data := x })
  rw [← NodeHeap.cells_put] at hC6
  have hframe6 : ∀ b, b ∉ t.ring (along kids (.below p y rest :: C)) → b ∉ (.nil : Forest Ptr α).ids →
      b ≠ a → (h5.put a { parent := p, prevSibling := kids.last 0, data := x }).cells b =
        h.cells b := by
    intro b hb _ hba
    rw [NodeHeap.cells_put, Function.update_of_ne hba, hframe5 b hb (by simp), NodeHeap.cells_put,
      Function.update_of_ne hba, hframe3 b hb, hcells, Function.update_of_ne hba]
  obtain ⟨hfocus, hupdates⟩ := h1.insert (x := x) hfresh ha hC6 links_nil (by simp) hframe6
  have hplug : plug (along kids (.below p y rest :: C)) (.cons a x .nil .nil) =
      plug C (.cons p y (kids.snoc a x) rest) := by rw [plug_along, snoc, plug_below]
  have hplug0 : plug (along kids (.below p y rest :: C)) .nil = plug C (.cons p y kids rest) := by
    rw [plug_along, append_nil, plug_below]
  refine ⟨_, a, ?_, hfocus.reframe hplug, hplug ▸ hplug0 ▸ hupdates⟩
  rw [NodeHeap.read_eq hp0 hn2]
  by_cases hlast : n2.lastChild ≠ 0
  · rw [if_pos hlast] at hleft
    simp only [if_pos hlast, hleft, NodeHeap.read_eq hp0 hn3, hlast3, hmodify3, hr, hmodify5]
  · rw [if_neg hlast] at hleft
    simp only [if_neg hlast, hleft, NodeHeap.read_eq hp0 hn3, hlast3, hmodify3, hr, hmodify5]

theorem prependChild_spec (h0 : Focus h.cells t C (.cons p y kids rest)) (x : α) :
    ∃ h' a, t.prependChild A h p x = .ok (h', a) ∧
      Focus h'.cells t C (.cons p y (.cons a x .nil kids) rest) ∧
      Updates h h' t (plug C (.cons p y kids rest))
        (plug C (.cons p y (.cons a x .nil kids) rest)) := by
  have h1 : Focus h.cells t (.below p y rest :: C) kids := h0.reframe rfl
  have hp0 : p ≠ 0 := h0.ne_zero (.inr (by simp))
  have hfresh : h.cells (A.allocate h.live) = none := NodeHeap.cells_allocate A
  have ha : A.allocate h.live ≠ 0 := A.ne_null _
  obtain ⟨_, hring, hids⟩ := h1.alloc A { data := x }
  simp only [Tree.prependChild, h0.assertPosition, NodeHeap.alloc]
  generalize A.allocate h.live = a at hfresh ha hring hids ⊢
  have hmodify := NodeHeap.modify_eq (h := h.put a { data := x }) (n := { data := x }) ha (by simp)
    fun n => { n with firstChild := 0, lastChild := 0, parent := p }
  simp only [hmodify, bind, Except.bind]
  generalize hh2 : ((h.put a { data := x }).put a _) = h2
  have hcells : h2.cells = Function.update h.cells a (some { parent := p, data := x }) := by
    rw [← hh2]
    simp
  have hnd := h1.nodup_ring
  have hC2 : ContextLinks h2.cells t (.below p y rest :: C) (kids.first 0) (kids.last 0) := by
    rw [hcells]
    exact h1.context.update hring
  have hg2 : Links h2.cells p 0 0 kids := by
    rw [hcells]
    exact h1.hole.update hids
  obtain ⟨n2, hn2, hfirst2, _⟩ := (hC2.left hnd).1 rfl
  -- the link from the first child, or from the parent
  obtain ⟨h3, hr, hC3, hg3, hframe3⟩ := right_step hC2 hg2 hnd h1.nodup_ids h1.apart a
  obtain ⟨n3, hn3, hfirst3, _⟩ := (hC3.left hnd).1 rfl
  simp only [parentAt_below, nextAt_below] at hn2 hn3 hr
  have hright : (if n2.firstChild ≠ 0 then
      h2.modify n2.firstChild fun n => { n with prevSibling := a }
      else h2.modify p fun n => { n with lastChild := a }) = .ok h3 := by
    rw [← hr, linkRight, hfirst2]
    by_cases hfirst : kids.first 0 = 0
    · simp [hfirst]
    · simp [hfirst]
  have ha3 : h3.cells a = some { parent := p, data := x } := by
    rw [hframe3 a hring hids, hcells]
    simp
  have hmodify3 := NodeHeap.modify_eq ha ha3 fun n => { n with nextSibling := n3.firstChild }
  rw [hfirst3] at hmodify3
  have hC4 : ContextLinks (h3.put a { parent := p, nextSibling := kids.first 0, data := x }).cells t
      (.below p y rest :: C) (kids.first 0) (kids.last a) := hC3.update hring
  -- the link from the parent to its first child
  obtain ⟨h5, hl, hC5, hframe5⟩ := left_step hC4 hnd a
  simp only [parentAt_below, prevAt_below, linkLeft, if_true] at hl
  have ha5 : h5.cells a = some { parent := p, nextSibling := kids.first 0, data := x } := by
    rw [hframe5 a hring]
    simp
  have hmodify5 := NodeHeap.modify_eq ha ha5 fun n => { n with prevSibling := 0 }
  have hC6 := hC5.update hring (v := some { parent := p, nextSibling := kids.first 0, data := x })
  have hg6 : Links (h5.put a { parent := p, nextSibling := kids.first 0, data := x }).cells p a 0
      kids := by
    refine hg3.congr fun b hb => ?_
    have hba : b ≠ a := by
      rintro rfl
      exact hids hb
    rw [NodeHeap.cells_put, Function.update_of_ne hba,
      hframe5 b fun hx => h1.apart b hb (List.mem_cons_of_mem _ hx), NodeHeap.cells_put,
      Function.update_of_ne hba]
  rw [← NodeHeap.cells_put] at hC6
  obtain ⟨hfocus, hupdates⟩ := h1.insert (x := x) hfresh ha hC6 hg6 (by simp) (fun b hb hb' hba => by
    rw [NodeHeap.cells_put, Function.update_of_ne hba, hframe5 b hb, NodeHeap.cells_put,
      Function.update_of_ne hba, hframe3 b hb hb', hcells, Function.update_of_ne hba])
  refine ⟨_, a, ?_, hfocus.reframe rfl, hupdates⟩
  rw [NodeHeap.read_eq hp0 hn2]
  by_cases hfirst : n2.firstChild ≠ 0
  · rw [if_pos hfirst] at hright
    simp only [if_pos hfirst, hright, NodeHeap.read_eq hp0 hn3, hfirst3, hmodify3, hl, hmodify5]
  · rw [if_neg hfirst] at hright
    simp only [if_neg hfirst, hright, NodeHeap.read_eq hp0 hn3, hfirst3, hmodify3, hl, hmodify5]

/-- A sibling iterator at a node. -/
theorem insertSibling_spec (h0 : Focus h.cells t C (.cons p y kids rest)) (parent_ : Ptr) (x : α) :
    ∃ h' a, insertSibling A h p parent_ x = .ok (h', a) ∧
      Focus h'.cells t C (.cons a x .nil (.cons p y kids rest)) ∧
      Updates h h' t (plug C (.cons p y kids rest))
        (plug C (.cons a x .nil (.cons p y kids rest))) := by
  have hp0 : p ≠ 0 := h0.ne_zero (.inr (by simp))
  have hp := h0.hole.1
  have hfresh : h.cells (A.allocate h.live) = none := NodeHeap.cells_allocate A
  have ha : A.allocate h.live ≠ 0 := A.ne_null _
  have hpa : p ≠ A.allocate h.live := by
    intro he
    rw [he, hfresh] at hp
    cases hp
  simp only [insertSibling, if_neg hp0, NodeHeap.alloc]
  generalize A.allocate h.live = a at hfresh ha hpa ⊢
  have hread := NodeHeap.read_eq (h := h.put a { data := x }) hp0 (by
    rw [NodeHeap.cells_put, Function.update_of_ne hpa]
    exact hp)
  have hmodify := NodeHeap.modify_eq (h := h.put a { data := x }) (n := { data := x }) ha (by simp)
    fun n => { n with
      firstChild := 0, lastChild := 0, nextSibling := p, parent := parentAt C
      prevSibling := t.prevAt C }
  simp only [hread, hmodify, bind, Except.bind]
  generalize hh2 : ((h.put a { data := x }).put a _) = h2
  have hcells : h2.cells = Function.update h.cells a (some {
      parent := parentAt C, prevSibling := t.prevAt C, nextSibling := p, data := x }) := by
    rw [← hh2]
    simp
  obtain ⟨h3, h4, hr, ha3, hl, hfocus, hupdates⟩ := (h0.attach hfresh ha hcells).1
  rw [first_cons, linkRight, if_neg hp0] at hr
  have hlink := linkPrev_eq ha (by rw [ha3, hcells]; exact Function.update_self ..)
    fun hx => parentAt_ne_zero h0.nodup_ring (.inl hx)
  exact ⟨h4, a, by simp only [hr, hlink, hl], hfocus, hupdates⟩

/-- A sibling iterator at the end of the children of `p`. -/
theorem insertSibling_end_spec (h0 : Focus h.cells t C (.cons p y kids rest)) (x : α) :
    ∃ h' a, insertSibling A h 0 p x = .ok (h', a) ∧
      Focus h'.cells t C (.cons p y (kids.snoc a x) rest) ∧
      Updates h h' t (plug C (.cons p y kids rest)) (plug C (.cons p y (kids.snoc a x) rest)) := by
  have h1 : Focus h.cells t (along kids (.below p y rest :: C)) .nil := h0.end_children
  have hp0 : p ≠ 0 := h0.ne_zero (.inr (by simp))
  have hp := h0.hole.1
  have hfresh : h.cells (A.allocate h.live) = none := NodeHeap.cells_allocate A
  have ha : A.allocate h.live ≠ 0 := A.ne_null _
  have hpa : p ≠ A.allocate h.live := by
    intro he
    rw [he, hfresh] at hp
    cases hp
  simp only [insertSibling, if_pos, NodeHeap.alloc]
  generalize A.allocate h.live = a at hfresh ha hpa ⊢
  have hread := NodeHeap.read_eq (h := h.put a { data := x }) hp0 (by
    rw [NodeHeap.cells_put, Function.update_of_ne hpa]
    exact hp)
  have hmodify := NodeHeap.modify_eq (h := h.put a { data := x }) (n := { data := x }) ha (by simp)
    fun n => { n with
      firstChild := 0, lastChild := 0, nextSibling := 0, parent := p
      prevSibling := kids.last 0 }
  simp only [hread, hmodify, bind, Except.bind]
  generalize hh2 : ((h.put a { data := x }).put a _) = h2
  have hcells : h2.cells = Function.update h.cells a (some {
      parent := p, prevSibling := kids.last 0, data := x }) := by
    rw [← hh2]
    simp
  obtain ⟨h3, h4, hr, ha3, hl, hfocus, hupdates⟩ := (h1.attach hfresh ha (by simpa using hcells)).1
  simp only [parentAt_along, nextAt_along, prevAt_along, parentAt_below, nextAt_below, prevAt_below,
    first_nil, linkRight, if_true] at hr hl
  have hlink := linkPrev_eq ha (by rw [ha3, hcells]; exact Function.update_self ..) fun _ => hp0
  have hplug : plug (along kids (.below p y rest :: C)) (.cons a x .nil .nil) =
      plug C (.cons p y (kids.snoc a x) rest) := by rw [plug_along, snoc, plug_below]
  have hplug0 : plug (along kids (.below p y rest :: C)) .nil = plug C (.cons p y kids rest) := by
    rw [plug_along, append_nil, plug_below]
  exact ⟨h4, a, by simp only [hr, hlink, hl], hfocus.reframe hplug, hplug ▸ hplug0 ▸ hupdates⟩

end Insertions

end Tree
end DepTaint
