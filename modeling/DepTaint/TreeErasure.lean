import DepTaint.TreeTraversal

/-!
# TreeErasure

What the operations of `tree.hh` that make and destroy trees, or remove nodes, do to the represented
forest.

* `erase_spec`: `erase` gives back the subtree at its position and returns the node after it.
* `clear_spec`, `destroy_spec`: nothing is left of a tree.
-/

namespace DepTaint
namespace Tree

open Forest

variable {α : Type} {h : NodeHeap α} {t : Tree} {C : Context Ptr α} {f kids rest : Forest Ptr α}
  {par prev b p : Ptr} {x y : α} {n : Nat}

/-! ## erase_children -/

/-- The loop over the children gives all of them back, with what is below them. -/
theorem eraseSiblings_spec (h0 : Links h.cells par prev 0 f) (hnd : f.ids.Nodup) (hzero : 0 ∉ f.ids)
    (hn : 2 * f.ids.length < n) : ∃ h', eraseSiblings n h (f.first 0) = .ok h' ∧
      (∀ b ∈ f.ids, h'.cells b = none) ∧ ∀ b ∉ f.ids, h'.cells b = h.cells b := by
  induction f generalizing par prev h n with
  | nil =>
    obtain ⟨n, rfl⟩ := Nat.exists_eq_succ_of_ne_zero (Nat.ne_of_gt hn)
    exact ⟨h, by simp [eraseSiblings], by simp, fun _ _ => rfl⟩
  | cons a x kids rest ihk ihr =>
    simp only [ids_cons, List.length_cons, List.length_append] at hn
    obtain ⟨n, rfl⟩ := Nat.exists_eq_succ_of_ne_zero (by omega : n ≠ 0)
    obtain ⟨n, rfl⟩ := Nat.exists_eq_succ_of_ne_zero (by omega : n ≠ 0)
    simp only [ids_cons, List.mem_cons, List.mem_append, not_or] at hzero
    simp only [ids_cons, List.nodup_cons, List.mem_append, not_or, List.nodup_append'] at hnd
    obtain ⟨⟨hak, har⟩, hkids, hrest, hdisj⟩ := hnd
    have ha0 : a ≠ 0 := Ne.symm hzero.1
    obtain ⟨ha, hk, hr⟩ := h0
    obtain ⟨h1, hh1, hnone1, hframe1⟩ := ihk (n := n) hk hkids hzero.2.1 (by omega)
    have ha1 := (hframe1 a hak).trans ha
    have hmodify := NodeHeap.modify_eq ha0 ha1 fun n => { n with firstChild := 0, lastChild := 0 }
    generalize hh2 : h1.put a _ = h2 at hmodify
    have hcells2 : ∀ b, b ≠ a → h2.cells b = h1.cells b := by
      intro b hb
      rw [← hh2, NodeHeap.cells_put, Function.update_of_ne hb]
    have ha2 : ∃ m, h2.cells a = some m := ⟨_, by rw [← hh2, NodeHeap.cells_put, Function.update_self]⟩
    obtain ⟨m, ha2⟩ := ha2
    have hdealloc := NodeHeap.dealloc_eq ha0 ha2
    have hcells3 : ∀ b, b ≠ a → (h2.remove a).cells b = h1.cells b := by
      intro b hb
      rw [NodeHeap.cells_remove, Function.update_of_ne hb, hcells2 b hb]
    have hr3 : Links (h2.remove a).cells par a 0 rest := by
      refine hr.congr fun b hb => ?_
      have hba : b ≠ a := by
        rintro rfl
        exact har hb
      rw [hcells3 b hba, hframe1 b fun hx => hdisj hx hb]
    obtain ⟨h4, hh4, hnone4, hframe4⟩ := ihr (n := n + 1) hr3 hrest hzero.2.2 (by omega)
    refine ⟨h4, ?_, fun b hb => ?_, fun b hb => ?_⟩
    · rw [first_cons, eraseSiblings]
      simp only [if_neg ha0, NodeHeap.read_eq ha0 ha, eraseChildren, hh1, hmodify, hdealloc, hh4,
        bind, Except.bind]
    · rcases List.mem_cons.mp hb with rfl | hb
      · rw [hframe4 b har, NodeHeap.cells_remove, Function.update_self]
      · rcases List.mem_append.mp hb with hb | hb
        · have hba : b ≠ a := fun he => hak (he ▸ hb)
          rw [hframe4 b fun hx => hdisj hb hx, hcells3 b hba, hnone1 b hb]
        · exact hnone4 b hb
    · simp only [ids_cons, List.mem_cons, List.mem_append, not_or] at hb
      rw [hframe4 b hb.2.2, hcells3 b hb.1, hframe1 b hb.2.1]

theorem eraseChildren_spec (h0 : Focus h.cells t C (.cons p y kids rest)) :
    ∃ h', eraseChildren (2 * h.fuel) h p = .ok h' ∧ Focus h'.cells t C (.cons p y .nil rest) ∧
      Updates h h' t (plug C (.cons p y kids rest)) (plug C (.cons p y .nil rest)) := by
  have hp0 : p ≠ 0 := h0.ne_zero (.inr (by simp))
  have hle := h0.length_le
  have hzero := h0.zero_notMem
  have hnd := h0.nodup_ids
  simp only [ids_cons, List.length_cons, List.length_append] at hle
  simp only [ids_cons, List.mem_cons, List.mem_append, not_or] at hzero
  simp only [ids_cons, List.nodup_cons, List.mem_append, not_or, List.nodup_append'] at hnd
  obtain ⟨⟨hpk, hpr⟩, hkids, hrest, hdisj⟩ := hnd
  obtain ⟨hp, hk, hr⟩ := h0.hole
  have hfuel : 2 * h.fuel = 2 * h.live.card + 1 + 1 := by
    unfold NodeHeap.fuel
    omega
  obtain ⟨h1, hh1, hnone1, hframe1⟩ :=
    eraseSiblings_spec (n := 2 * h.live.card + 1) hk hkids hzero.2.1 (by omega)
  have hp1 := (hframe1 p hpk).trans hp
  have hmodify := NodeHeap.modify_eq hp0 hp1 fun n => { n with firstChild := 0, lastChild := 0 }
  have hcells : ∀ b, b ≠ p → b ∉ kids.ids → (h1.put p {
      parent := parentAt C, prevSibling := t.prevAt C, nextSibling := rest.first (t.nextAt C)
      data := y }).cells b = h.cells b := by
    intro b hb hbk
    rw [NodeHeap.cells_put, Function.update_of_ne hb, hframe1 b hbk]
  have hring : ∀ b ∈ t.ring C, b ≠ p ∧ b ∉ kids.ids := by
    intro b hb
    refine ⟨?_, fun hx => h0.apart b (by simp [hx]) (List.mem_cons_of_mem _ hb)⟩
    rintro rfl
    exact h0.apart b (by simp) (List.mem_cons_of_mem _ hb)
  have hfocus : Focus (h1.put p {
      parent := parentAt C, prevSibling := t.prevAt C, nextSibling := rest.first (t.nextAt C)
      data := y }).cells t C (.cons p y .nil rest) := by
    refine ⟨h0.context.congr fun b hb => hcells b (hring b hb).1 (hring b hb).2,
      ⟨by simp, links_nil, hr.congr fun b hb => hcells b ?_ fun hx => hdisj hx hb⟩, h0.nodup_ring,
      ?_, fun b hb => h0.apart b ?_⟩
    · rintro rfl
      exact hpr hb
    · simpa using ⟨hpr, hrest⟩
    · simp only [ids_cons, ids_nil, List.nil_append, List.mem_cons, List.mem_append] at hb ⊢
      tauto
  refine ⟨_, ?_, hfocus, hfocus.updates (fun b hb hn => ?_) (fun b hb hn => ?_)
    fun b _ hb _ => ?_⟩
  · rw [hfuel, eraseChildren]
    simp only [if_neg hp0, NodeHeap.read_eq hp0 hp, hh1, hmodify, bind, Except.bind]
  · exact absurd (by simp only [ids_cons, ids_nil, List.nil_append, List.mem_cons,
      List.mem_append] at hb ⊢; tauto) hn
  · simp only [ids_cons, ids_nil, List.nil_append, List.mem_cons, List.mem_append, not_or] at hb hn
    rw [NodeHeap.cells_put, Function.update_of_ne hn.1]
    exact hnone1 b ((hb.resolve_left hn.1).resolve_right hn.2)
  · simp only [ids_cons, List.mem_cons, List.mem_append, not_or] at hb
    exact hcells b hb.1 hb.2.1

/-! ## erase -/

theorem erase_spec (h0 : Focus h.cells t C (.cons p y kids rest)) :
    ∃ h', t.erase h p = .ok (h', { node := (rest.ids ++ after C).headD t.feet }) ∧
      Focus h'.cells t C rest ∧ Updates h h' t (plug C (.cons p y kids rest)) (plug C rest) := by
  have hp0 : p ≠ 0 := h0.ne_zero (.inr (by simp))
  have hring : p ∉ t.ring C := fun hx => h0.apart p (by simp) (List.mem_cons_of_mem _ hx)
  have hhead : p ≠ t.head := by
    rintro rfl
    exact hring head_mem_ring
  obtain ⟨h1, hh1, hfocus1, hupdates1⟩ := eraseChildren_spec h0
  obtain ⟨hp1, _, hr1⟩ := hfocus1.hole
  have hnd := hfocus1.nodup_ring
  have hids := hfocus1.nodup_ids
  simp only [ids_cons, ids_nil, List.nil_append, List.nodup_cons] at hids
  have hapart : ∀ b ∈ rest.ids, b ∉ 0 :: t.ring C := fun b hb => hfocus1.apart b (by simp [hb])
  -- the two neighbours are linked to each other
  obtain ⟨h2, hl, hC2, hframe2⟩ := left_step hfocus1.context hnd (rest.first (t.nextAt C))
  rw [last_cons] at hC2
  have hr2 : Links h2.cells (parentAt C) p (t.nextAt C) rest :=
    hr1.congr fun b hb => hframe2 b fun hx => hapart b hb (List.mem_cons_of_mem _ hx)
  obtain ⟨h3, hr, hC3, hr3, hframe3⟩ := right_step hC2 hr2 hnd hids.2 hapart (t.prevAt C)
  have hp3 := ((hframe3 p hring hids.1).trans (hframe2 p hring)).trans hp1
  have hfocus : Focus (h3.remove p).cells t C rest :=
    ⟨hC3.update hring, hr3.update hids.1, hnd, hids.2, hapart⟩
  refine ⟨h3.remove p, ?_, hfocus, hupdates1.trans
    (hfocus.updates (fun b hb hn => ?_) (fun b hb hn => ?_) fun b hb hb' _ => ?_)⟩
  · rw [linkLeft] at hl
    rw [linkRight] at hr
    simp only [erase, treeAssert_true hhead, incr_skip_spec h0, hh1, NodeHeap.read_eq hp0 hp1,
      bind, Except.bind]
    by_cases hprev : t.prevAt C = 0
    · rw [if_pos hprev] at hl
      simp only [if_pos hprev, hl]
      by_cases hnext : rest.first (t.nextAt C) = 0
      · rw [if_pos hnext] at hr
        simp only [if_pos hnext, hr, NodeHeap.dealloc_eq hp0 hp3]
      · rw [if_neg hnext] at hr
        simp only [if_neg hnext, hr, NodeHeap.dealloc_eq hp0 hp3]
    · rw [if_neg hprev] at hl
      simp only [if_neg hprev, hl]
      by_cases hnext : rest.first (t.nextAt C) = 0
      · rw [if_pos hnext] at hr
        simp only [if_pos hnext, hr, NodeHeap.dealloc_eq hp0 hp3]
      · rw [if_neg hnext] at hr
        simp only [if_neg hnext, hr, NodeHeap.dealloc_eq hp0 hp3]
  · exact absurd (by simp [hb]) hn
  · have hbp : b = p := by
      simp only [ids_cons, ids_nil, List.nil_append, List.mem_cons] at hb
      exact hb.resolve_right hn
    rw [hbp, NodeHeap.cells_remove, Function.update_self]
  · simp only [ids_cons, ids_nil, List.nil_append, List.mem_cons, not_or] at hb'
    rw [NodeHeap.cells_remove, Function.update_of_ne hb'.1, hframe3 b hb hb'.2, hframe2 b hb]

/-! ## clear, and the destructor -/

theorem clearLoop_spec (h0 : Represents h.cells t f) (hn : f.ids.length < n) :
    ∃ h', t.clearLoop n h = .ok h' ∧ Updates h h' t f .nil := by
  induction n generalizing h f with
  | zero => omega
  | succ n ih =>
    obtain ⟨x, hx⟩ := h0.sentinels.1
    have hhead : t.head ≠ 0 := h0.ne_zero (by simp [footprint])
    simp only [clearLoop, NodeHeap.read_eq hhead hx, bind, Except.bind]
    cases f with
    | nil => exact ⟨h, by rw [first_nil, if_pos rfl], .refl h0⟩
    | cons a y kids rest =>
      have hfeet : a ≠ t.feet := by
        have hnd := h0.nodup
        simp only [footprint, List.nodup_cons, ids_cons, List.mem_cons, not_or] at hnd
        exact Ne.symm hnd.2.2.1.1
      obtain ⟨h1, hh1, hfocus1, hupdates1⟩ := erase_spec (C := []) (represents_plug.mp h0)
      simp only [ids_cons, List.length_cons, List.length_append] at hn
      obtain ⟨h2, hh2, hupdates2⟩ := ih (represents_plug.mpr hfocus1) (by rw [plug_nil]; omega)
      refine ⟨h2, ?_, hupdates1.trans hupdates2⟩
      rw [first_cons, if_neg hfeet, hh1]
      exact hh2

theorem clear_spec (h0 : Represents h.cells t f) :
    ∃ h', t.clear h = .ok h' ∧ Updates h h' t f .nil := by
  have hle := h0.length_le
  obtain ⟨h1, hh1, hupdates⟩ := clearLoop_spec (n := h.fuel) h0 (by unfold NodeHeap.fuel; omega)
  refine ⟨h1, ?_, hupdates⟩
  rw [clear, if_neg (h0.ne_zero (by simp [footprint])), hh1]

/-- The destructor gives back every node of the tree, and nothing else. -/
theorem destroy_spec (h0 : Represents h.cells t f) :
    ∃ h', t.destroy h = .ok h' ∧ (∀ b ∈ t.footprint f, h'.cells b = none) ∧
      ∀ b ∉ t.footprint f, h'.cells b = h.cells b := by
  obtain ⟨h1, hh1, hupdates⟩ := clear_spec h0
  have h1r := hupdates.represents
  obtain ⟨⟨x, hx⟩, y, hy⟩ := h1r.sentinels
  have hhead : t.head ≠ 0 := h0.ne_zero (by simp [footprint])
  have hfeet : t.feet ≠ 0 := h0.ne_zero (by simp [footprint])
  have hne : t.feet ≠ t.head := by
    have hnd := h1r.nodup
    simp only [footprint, List.nodup_cons, List.mem_cons, not_or] at hnd
    exact Ne.symm hnd.2.1.1
  have hfeet1 : (h1.remove t.head).cells t.feet = some { prevSibling := t.head, data := y } := by
    rw [NodeHeap.cells_remove, Function.update_of_ne hne]
    exact hy
  refine ⟨(h1.remove t.head).remove t.feet, ?_, fun b hb => ?_, fun b hb => ?_⟩
  · simp only [destroy, hh1, NodeHeap.dealloc_eq hhead hx, NodeHeap.dealloc_eq hfeet hfeet1, bind,
      Except.bind]
  · by_cases hbf : b = t.feet
    · rw [hbf, NodeHeap.cells_remove, Function.update_self]
    · by_cases hbh : b = t.head
      · rw [hbh, NodeHeap.cells_remove, Function.update_of_ne (Ne.symm hne), NodeHeap.cells_remove,
          Function.update_self]
      · have hmem : b ∈ f.ids := by
          simp only [footprint, List.mem_cons] at hb
          tauto
        rw [NodeHeap.cells_remove, Function.update_of_ne hbf, NodeHeap.cells_remove,
          Function.update_of_ne hbh]
        exact hupdates.freed b hmem (by simp)
  · have hb' := hb
    simp only [footprint, List.mem_cons, not_or] at hb'
    rw [NodeHeap.cells_remove, Function.update_of_ne hb'.2.1, NodeHeap.cells_remove,
      Function.update_of_ne hb'.1]
    exact hupdates.frame b hb (by simp)

/-! ## The constructor, and the first node -/

/-- A new tree is empty; it takes two addresses that were free. -/
theorem headInitialise_spec [Inhabited α] (A : Allocator) (h : NodeHeap α) :
    ∃ h' t, headInitialise A h = .ok (h', t) ∧ Represents h'.cells t (.nil : Forest Ptr α) ∧
      h.cells t.head = none ∧ h.cells t.feet = none ∧
      ∀ b, b ≠ t.head → b ≠ t.feet → h'.cells b = h.cells b := by
  have hhead : h.cells (A.allocate h.live) = none := NodeHeap.cells_allocate A
  have hhead0 : A.allocate h.live ≠ 0 := A.ne_null _
  simp only [headInitialise, NodeHeap.alloc]
  generalize A.allocate h.live = head at hhead hhead0 ⊢
  have hfeet := NodeHeap.cells_allocate (h := h.put head { data := default }) A
  have hfeet0 : A.allocate (h.put head { data := default }).live ≠ 0 := A.ne_null _
  generalize A.allocate (h.put head { data := default }).live = feet at hfeet hfeet0 ⊢
  have hne : feet ≠ head := by
    rintro rfl
    simp at hfeet
  rw [NodeHeap.cells_put, Function.update_of_ne hne] at hfeet
  have hmodify := NodeHeap.modify_eq (a := head) (n := { data := default })
    (h := (h.put head { data := default }).put feet { data := default }) hhead0
    (by simp [Function.update_of_ne (Ne.symm hne)])
    fun n => { n with
      parent := 0, firstChild := 0, lastChild := 0, prevSibling := 0, nextSibling := feet }
  simp only [hmodify, bind, Except.bind]
  generalize hh2 : NodeHeap.put _ head _ = h2
  have hcells2 : h2.cells = Function.update (Function.update (Function.update h.cells head
      (some { data := default })) feet (some { data := default })) head
      (some { nextSibling := feet, data := default }) := by
    rw [← hh2]
    rfl
  have hfeet2 : h2.cells feet = some { data := default } := by
    rw [hcells2, Function.update_of_ne hne, Function.update_self]
  have hmodify2 := NodeHeap.modify_eq hfeet0 hfeet2 fun n => { n with
      parent := 0, firstChild := 0, lastChild := 0, prevSibling := head, nextSibling := 0 }
  simp only [hmodify2]
  refine ⟨_, ⟨head, feet⟩, rfl, ⟨⟨⟨default, ?_⟩, default, ?_⟩, links_nil, ?_⟩, hhead, hfeet,
    fun b hb hb' => ?_⟩
  · rw [NodeHeap.cells_put, Function.update_of_ne (Ne.symm hne), hcells2, Function.update_self]
    rfl
  · rw [NodeHeap.cells_put, Function.update_self]
    rfl
  · simp only [footprint, ids_nil, List.nodup_cons, List.mem_cons, List.not_mem_nil, or_false,
      not_or, List.nodup_nil, not_false_eq_true, and_true]
    exact ⟨⟨Ne.symm hhead0, Ne.symm hfeet0⟩, Ne.symm hne⟩
  · rw [NodeHeap.cells_put, Function.update_of_ne hb', hcells2, Function.update_of_ne hb,
      Function.update_of_ne hb', Function.update_of_ne hb]

theorem setHead_spec (A : Allocator) (h0 : Represents h.cells t .nil) (x : α) :
    ∃ h' a, t.setHead A h x = .ok (h', a) ∧
      Represents h'.cells t (.cons a x .nil .nil) ∧ Updates h h' t .nil (.cons a x .nil .nil) := by
  obtain ⟨z, hz⟩ := h0.sentinels.1
  have hhead : t.head ≠ 0 := h0.ne_zero (by simp [footprint])
  have hfeet : t.feet ≠ 0 := h0.ne_zero (by simp [footprint])
  obtain ⟨h', a, hinsert, hfocus, hupdates⟩ :=
    insert_spec (C := []) A (represents_plug.mp h0) hfeet x
  refine ⟨h', a, ?_, represents_plug.mpr hfocus, hupdates⟩
  simp only [setHead, NodeHeap.read_eq hhead hz, first_nil, treeAssert_true, bind, Except.bind]
  exact hinsert

end Tree
end DepTaint
