import DepTaint.TreeUpdates

/-!
# TreeTraversal

What the iterators of `tree.hh` come to, and what the queries return, in a tree that holds a forest.

* `walk_spec`, `walkBack_spec`, `walkPost_spec`: from `begin` to `end` the pre-order iterator lists the
  forest in pre-order, from `end` to `begin` backwards, and the post-order iterator in post-order.
* `depth_spec`, `numberOfChildren_spec`, `child_spec`: the queries at a node.
* `debugVerifyConsistency_spec`: the assertions of the debugging aid hold.
-/

namespace DepTaint
namespace Tree

open Forest

variable {α : Type} {h : NodeHeap α} {t : Tree} {C : Context Ptr α} {f g kids rest : Forest Ptr α}
  {par prev next a b p d first last : Ptr} {x y : α} {n : Nat} {l r : List Ptr}

/-! ## Fuel -/

theorem Represents.length_le (h0 : Represents h.cells t f) : f.ids.length ≤ h.live.card := by
  have hnd : f.ids.Nodup := by
    have := h0.nodup
    simp only [footprint, List.nodup_cons] at this
    exact this.2.2.2
  rw [← List.toFinset_card_of_nodup hnd]
  refine Finset.card_le_card fun b hb => (h.mem_live b).mpr (h0.isSome b ?_)
  simp only [footprint, List.mem_cons]
  exact .inr (.inr (List.mem_toFinset.mp hb))

theorem length_ancestorsOf_le : (ancestorsOf C).length ≤ (before C).length := by
  induction C with
  | nil => exact Nat.le_refl _
  | cons fr C ih =>
    cases fr with
    | below id x rest =>
      simp only [ancestorsOf, before, List.length_cons, List.length_append, List.length_nil]
      omega
    | beside id x kids =>
      simp only [ancestorsOf, before, List.length_cons, List.length_append]
      omega

theorem Focus.length_le (h0 : Focus h.cells t C g) :
    (ancestorsOf C).length + g.ids.length + (after C).length ≤ h.live.card := by
  have hle := (represents_plug.mpr h0).length_le
  rw [ids_plug] at hle
  simp only [List.length_append] at hle
  have := length_ancestorsOf_le (C := C)
  omega

/-! ## Pre-order -/

theorem first_eq_headD : f.first d = f.ids.headD d := by
  cases f <;> rfl

/-- The parent, when the hole is not at the top. -/
theorem exists_parent (hnext : t.nextAt C = 0) (hfeet : t.feet ≠ 0) :
    ∃ x rest D, (∀ g, ∃ kids, plug C g = plug D (.cons (parentAt C) x kids rest)) ∧
      after C = rest.ids ++ after D ∧ postAfter C = parentAt C :: (rest.postorder ++ postAfter D) ∧
      ancestorsOf C = parentAt C :: ancestorsOf D := by
  induction C with
  | nil => exact absurd hnext hfeet
  | cons fr C ih =>
    cases fr with
    | below id x rest => exact ⟨x, rest, C, fun g => ⟨g, rfl⟩, rfl, rfl, rfl⟩
    | beside id x kids =>
      obtain ⟨y, rest, D, hplug, hlists⟩ := ih hnext
      exact ⟨y, rest, D, fun g => hplug (.cons id x kids g), hlists⟩

theorem after_of_nextAt (hnext : t.nextAt C ≠ 0) :
    t.nextAt C = t.feet ∧ after C = [] ∧ postAfter C = [] ∧ ancestorsOf C = [] := by
  induction C with
  | nil => exact ⟨rfl, rfl, rfl, rfl⟩
  | cons fr C ih =>
    cases fr with
    | below id x rest => exact absurd rfl hnext
    | beside id x kids => exact ih hnext

theorem Focus.feet_ne_zero (h0 : Focus h.cells t C g) : t.feet ≠ 0 :=
  h0.ne_zero (.inl feet_mem_ring)

/-- Up to the first node with a next sibling, and on to it. -/
theorem climb_spec (h0 : Focus h.cells t C (.cons p y kids rest))
    (hn : (ancestorsOf C).length < n) :
    climb h n p = .ok ((rest.ids ++ after C).headD t.feet) := by
  induction n generalizing C p y kids rest with
  | zero => omega
  | succ n ih =>
    have hp0 : p ≠ 0 := h0.ne_zero (.inr (by simp))
    simp only [climb, NodeHeap.read_eq hp0 h0.hole.1, bind, Except.bind]
    cases rest with
    | cons c z k r =>
      have hc0 : c ≠ 0 := h0.ne_zero (.inr (by simp))
      simp [hc0]
    | nil =>
      rw [first_nil]
      by_cases hnext : t.nextAt C = 0
      · have hpar : parentAt C ≠ 0 := parentAt_ne_zero h0.nodup_ring (.inr hnext)
        obtain ⟨z, rest', D, hplug, hafter, _, hancestors⟩ := exists_parent hnext h0.feet_ne_zero
        obtain ⟨kids', hplug⟩ := hplug (.cons p y kids .nil)
        rw [hancestors, List.length_cons] at hn
        rw [if_pos hnext, if_neg hpar, ih (h0.reframe hplug) (by omega), hafter]
        rfl
      · obtain ⟨hfeet, hafter, _⟩ := after_of_nextAt hnext
        rw [if_neg hnext, hfeet, hafter]
        rfl

theorem incr_spec (h0 : Focus h.cells t C (.cons p y kids rest)) :
    PreOrderIterator.incr h { node := p } =
      .ok { node := (kids.ids ++ rest.ids ++ after C).headD t.feet } := by
  have hp0 : p ≠ 0 := h0.ne_zero (.inr (by simp))
  have hle := h0.length_le
  simp only [PreOrderIterator.incr, treeAssert_true hp0, NodeHeap.read_eq hp0 h0.hole.1, bind,
    Except.bind]
  cases kids with
  | nil =>
    have hclimb := climb_spec (n := h.fuel) h0 (by unfold NodeHeap.fuel; omega)
    simp [hclimb]
  | cons c z k r =>
    have hc0 : c ≠ 0 := h0.ne_zero (.inr (by simp))
    simp [hc0]

/-- With `skip_children`. -/
theorem incr_skip_spec (h0 : Focus h.cells t C (.cons p y kids rest)) :
    PreOrderIterator.incr h { node := p, skipCurrentChildren := true } =
      .ok { node := (rest.ids ++ after C).headD t.feet } := by
  have hp0 : p ≠ 0 := h0.ne_zero (.inr (by simp))
  have hle := h0.length_le
  have hclimb := climb_spec (n := h.fuel) h0 (by unfold NodeHeap.fuel; omega)
  simp only [PreOrderIterator.incr, treeAssert_true hp0, NodeHeap.read_eq hp0 h0.hole.1, hclimb,
    bind, Except.bind]
  simp

theorem Represents.nodup_ids (h0 : Represents h.cells t f) : f.ids.Nodup := by
  have := h0.nodup
  simp only [footprint, List.nodup_cons] at this
  exact this.2.2.2

/-- A place in the pre-order is a position. -/
theorem Represents.exists_focus (h0 : Represents h.cells t f) (hids : f.ids = l ++ p :: r) :
    ∃ C y kids rest, f = plug C (.cons p y kids rest) ∧
      Focus h.cells t C (.cons p y kids rest) ∧
      l = before C ∧ r = kids.ids ++ rest.ids ++ after C := by
  have hmem : p ∈ f.ids := by simp [hids]
  obtain ⟨C, y, kids, rest, rfl⟩ := exists_plug hmem
  have hnd := h0.nodup_ids
  rw [hids, List.nodup_middle, List.nodup_cons, List.mem_append, not_or] at hnd
  have hsplit : l ++ p :: r = before C ++ p :: (kids.ids ++ rest.ids ++ after C) := by
    rw [← hids, ids_plug]
    simp
  obtain ⟨hl, _, hr⟩ := (List.append_cons_inj_of_notMem hnd.1.1 hnd.1.2).mp hsplit
  exact ⟨C, y, kids, rest, rfl, represents_plug.mp h0, hl, hr⟩

/-- The nodes from one position to a later one. -/
theorem walk_between {m : List Ptr} (h0 : Represents h.cells t f) (hids : f.ids = l ++ (m ++ r))
    (hn : m.length < n) : walk h (r.headD t.feet) n { node := (m ++ r).headD t.feet } = .ok m := by
  induction m generalizing l n with
  | nil =>
    obtain ⟨n, rfl⟩ := Nat.exists_eq_succ_of_ne_zero (Nat.ne_of_gt hn)
    simp [walk]
  | cons p m ih =>
    rw [List.length_cons] at hn
    obtain ⟨n, rfl⟩ := Nat.exists_eq_succ_of_ne_zero (by omega : n ≠ 0)
    obtain ⟨C, y, kids, rest, _, hfocus, _, hr⟩ := h0.exists_focus (l := l) (r := m ++ r) hids
    have hne : p ≠ r.headD t.feet := by
      have hnd := h0.nodup
      simp only [footprint, List.nodup_cons, hids] at hnd
      cases r with
      | nil =>
        rintro rfl
        exact hnd.2.2.1 (by simp)
      | cons q r =>
        rintro rfl
        have hnd' := (List.nodup_append'.mp hnd.2.2.2).2.1
        simp at hnd'
    have hwalk := ih (l := l ++ [p]) (n := n) (by simp [hids]) (by omega)
    rw [hr] at hwalk
    simp only [walk, List.cons_append, List.headD_cons, if_neg hne, incr_spec hfocus, hwalk, bind,
      Except.bind]

theorem begin_spec (h0 : Represents h.cells t f) : t.begin h = .ok (f.ids.headD t.feet) := by
  obtain ⟨x, hx⟩ := h0.sentinels.1
  simp only [Tree.begin, NodeHeap.read_eq (h0.ne_zero (by simp [footprint])) hx, bind, Except.bind]
  rw [first_eq_headD]

/-- From `begin` to `end` the iterator lists the forest in pre-order. -/
theorem walk_spec (h0 : Represents h.cells t f) :
    walk h t.feet h.fuel { node := f.ids.headD t.feet } = .ok f.ids := by
  have hle := h0.length_le
  have hwalk := walk_between (l := []) (m := f.ids) (r := []) (n := h.fuel) h0 (by simp)
    (by unfold NodeHeap.fuel; omega)
  simpa using hwalk

theorem size_spec (h0 : Represents h.cells t f) : t.size h = .ok f.ids.length := by
  simp only [Tree.size, begin_spec h0, walk_spec h0, bind, Except.bind]

theorem sizeAt_spec (h0 : Focus h.cells t C (.cons p y kids rest)) :
    sizeAt h p = .ok (kids.ids.length + 1) := by
  have hle := h0.length_le
  simp only [ids_cons, List.length_cons, List.length_append] at hle
  have hwalk := walk_between (l := before C) (m := p :: kids.ids) (r := rest.ids ++ after C)
    (n := h.fuel) (represents_plug.mpr h0) (by rw [ids_plug]; simp)
    (by rw [List.length_cons]; unfold NodeHeap.fuel; omega)
  rw [List.cons_append, List.headD_cons] at hwalk
  simp only [sizeAt, incr_skip_spec h0, hwalk, bind, Except.bind, List.length_cons]

/-! ## Pre-order, backwards -/

theorem getLastD_append : (l ++ r).getLastD d = r.getLastD (l.getLastD d) := by
  induction l generalizing d with
  | nil => rfl
  | cons a l ih => rw [List.cons_append, List.getLastD_cons, List.getLastD_cons, ih]

/-- The last node of a forest is below its last root. -/
theorem descendLast_spec (h0 : Links h.cells par prev next f) (hzero : 0 ∉ f.ids) (hf : f ≠ .nil)
    (hn : f.ids.length ≤ n) : descendLast h n (f.last d) = .ok (f.ids.getLastD d) := by
  induction f generalizing par prev next d n with
  | nil => exact absurd rfl hf
  | cons a x kids rest ihk ihr =>
    obtain ⟨ha, hk, hr⟩ := h0
    simp only [ids_cons, List.mem_cons, List.mem_append, not_or] at hzero
    simp only [ids_cons, List.length_cons, List.length_append] at hn
    rw [last_cons, ids_cons, List.getLastD_cons, getLastD_append]
    cases rest with
    | nil =>
      obtain ⟨n, rfl⟩ := Nat.exists_eq_succ_of_ne_zero (by omega : n ≠ 0)
      rw [last_nil]
      simp only [descendLast, NodeHeap.read_eq (Ne.symm hzero.1) ha, bind, Except.bind]
      cases kids with
      | nil => rfl
      | cons b y k r =>
        have hlast : (cons b y k r).last 0 ≠ 0 := by
          intro hx
          have hmem := last_mem_of_ne (f := cons b y k r) (d := 0) (by simp)
          rw [hx] at hmem
          exact hzero.2.1 hmem
        rw [if_neg hlast, ihk hk hzero.2.1 (by simp) (by omega)]
        rfl
    | cons b y k r => exact ihr hr hzero.2.2 (by simp) (by omega)

theorem descendLast_head (h0 : Represents h.cells t f) (hn : n ≠ 0) :
    descendLast h n t.head = .ok t.head := by
  obtain ⟨n, rfl⟩ := Nat.exists_eq_succ_of_ne_zero hn
  obtain ⟨x, hx⟩ := h0.sentinels.1
  simp only [descendLast, NodeHeap.read_eq (h0.ne_zero (by simp [footprint])) hx, bind, Except.bind,
    if_true]

theorem decr_spec (h0 : Focus h.cells t C (.cons p y kids rest)) :
    PreOrderIterator.decr h { node := p } = .ok { node := (before C).getLastD t.head } := by
  have hp0 : p ≠ 0 := h0.ne_zero (.inr (by simp))
  have hle := (represents_plug.mpr h0).length_le
  have hnd := h0.nodup_ring
  simp only [PreOrderIterator.decr, treeAssert_true hp0, NodeHeap.read_eq hp0 h0.hole.1, bind,
    Except.bind]
  cases C with
  | nil =>
    have hhead : t.head ≠ 0 := h0.ne_zero (.inl head_mem_ring)
    have hdescend := descendLast_head (n := h.fuel) (represents_plug.mpr h0) (Nat.succ_ne_zero _)
    simp only [prevAt_nil, if_pos hhead, hdescend, before]
    rfl
  | cons fr C =>
    obtain ⟨hlabel, hself, hring, _, hapart, _⟩ := nodup_ring_cons hnd
    cases fr with
    | below id x rest' =>
      simp only [prevAt_below, parentAt_below, before, getLastD_append]
      rfl
    | beside id x kids' =>
      obtain ⟨hid, hk, _⟩ := h0.context
      have hlinks : Links h.cells (parentAt C) (t.prevAt C) p (.cons id x kids' .nil) :=
        ⟨hid, hk, links_nil⟩
      have hdescend := descendLast_spec (d := 0) (n := h.fuel) hlinks (by
          simp only [ids_cons, ids_nil, List.append_nil, List.mem_cons, not_or]
          exact ⟨Ne.symm hlabel, fun hx => hapart 0 hx (by simp)⟩) (by simp) (by
          simp only [plug_beside, ids_plug, List.length_append, ids_cons, List.length_cons] at hle
          simp only [ids_cons, ids_nil, List.append_nil, List.length_cons, NodeHeap.fuel]
          omega)
      have hid0 : id ≠ 0 := hlabel
      rw [last_cons, last_nil] at hdescend
      simp only [prevAt_beside, if_pos hid0, hdescend, before, getLastD_append, ids_cons, ids_nil,
        List.append_nil, List.getLastD_cons]

/-- `--end()`. -/
theorem decr_feet_spec (h0 : Represents h.cells t f) :
    PreOrderIterator.decr h { node := t.feet } = .ok { node := f.ids.getLastD t.head } := by
  obtain ⟨x, hx⟩ := h0.sentinels.2
  have hfeet : t.feet ≠ 0 := h0.ne_zero (by simp [footprint])
  have hle := h0.length_le
  have hnd := h0.nodup
  simp only [PreOrderIterator.decr, treeAssert_true hfeet, NodeHeap.read_eq hfeet hx, bind,
    Except.bind]
  cases f with
  | nil =>
    have hhead : t.head ≠ 0 := h0.ne_zero (by simp [footprint])
    have hdescend := descendLast_head (n := h.fuel) h0 (Nat.succ_ne_zero _)
    rw [last_nil, if_pos hhead, hdescend]
    rfl
  | cons a y kids rest =>
    simp only [footprint, List.nodup_cons, List.mem_cons, not_or] at hnd
    have hlast : (cons a y kids rest).last t.head ≠ 0 := by
      intro hx
      have hmem := last_mem_of_ne (f := cons a y kids rest) (d := t.head) (by simp)
      rw [hx] at hmem
      exact hnd.1.2.2 hmem
    rw [if_pos hlast, descendLast_spec h0.links hnd.1.2.2 (by simp)
      (by unfold NodeHeap.fuel; omega)]

/-- From `end` to `begin` the iterator lists the forest backwards. -/
theorem walkBack_between (h0 : Represents h.cells t f) (hids : f.ids = l ++ r) (hn : l.length < n) :
    walkBack h (f.ids.headD t.feet) n { node := r.headD t.feet } = .ok l.reverse := by
  induction l using List.reverseRecOn generalizing r n with
  | nil =>
    obtain ⟨n, rfl⟩ := Nat.exists_eq_succ_of_ne_zero (Nat.ne_of_gt hn)
    rw [hids]
    simp [walkBack]
  | append_singleton l q ih =>
    rw [List.length_append, List.length_singleton] at hn
    obtain ⟨n, rfl⟩ := Nat.exists_eq_succ_of_ne_zero (by omega : n ≠ 0)
    have hne : r.headD t.feet ≠ f.ids.headD t.feet := by
      have hnd := h0.nodup
      simp only [footprint, List.nodup_cons] at hnd
      have hfirst : f.ids.headD t.feet ∈ l ++ [q] := by
        rw [hids]
        cases l <;> simp
      cases r with
      | nil =>
        intro hx
        rw [← hx] at hfirst
        exact hnd.2.2.1 (by rw [hids]; exact List.mem_append_left _ hfirst)
      | cons p r =>
        intro hx
        rw [← hx] at hfirst
        have hnd' := hnd.2.2.2
        rw [hids, List.nodup_append'] at hnd'
        exact hnd'.2.2 hfirst (List.mem_cons_self ..)
    have hdecr : PreOrderIterator.decr h { node := r.headD t.feet } = .ok { node := q } := by
      cases r with
      | nil =>
        rw [List.headD_nil, decr_feet_spec h0, hids]
        simp
      | cons p r =>
        obtain ⟨C, y, kids, rest, _, hfocus, hl, _⟩ := h0.exists_focus hids
        rw [List.headD_cons, decr_spec hfocus, ← hl]
        simp
    have hback := ih (r := q :: r) (by simp [hids]) (n := n) (by omega)
    rw [List.headD_cons] at hback
    simp only [walkBack, if_neg hne, hdecr, hback, bind, Except.bind]
    simp

theorem walkBack_spec (h0 : Represents h.cells t f) :
    walkBack h (f.ids.headD t.feet) h.fuel { node := t.feet } = .ok f.ids.reverse := by
  have hle := h0.length_le
  exact walkBack_between (r := []) h0 (by simp) (by unfold NodeHeap.fuel; omega)

/-! ## Post-order -/

theorem descendFirst_spec (h0 : Links h.cells par prev next (.cons a x kids rest))
    (hzero : 0 ∉ a :: kids.ids) (hn : kids.ids.length < n) :
    descendFirst h n a = .ok ((kids.postorder).headD a) := by
  induction kids generalizing par prev next a x rest n with
  | nil =>
    obtain ⟨n, rfl⟩ := Nat.exists_eq_succ_of_ne_zero (Nat.ne_of_gt hn)
    have ha0 : a ≠ 0 := fun hx => hzero (by simp [hx])
    simp only [descendFirst, NodeHeap.read_eq ha0 h0.1, bind, Except.bind, first_nil, if_true]
    rfl
  | cons b z k r ihk _ =>
    simp only [ids_cons, List.length_cons, List.length_append] at hn
    obtain ⟨n, rfl⟩ := Nat.exists_eq_succ_of_ne_zero (by omega : n ≠ 0)
    have ha0 : a ≠ 0 := fun hx => hzero (by simp [hx])
    have hb0 : b ≠ 0 := fun hx => hzero (by simp [hx])
    have hdescend := ihk (n := n) h0.2.1 (fun hx => hzero (by
      simp only [ids_cons, List.mem_cons, List.mem_append] at hx ⊢
      tauto)) (by omega)
    simp only [descendFirst, NodeHeap.read_eq ha0 h0.1, bind, Except.bind, first_cons, if_neg hb0,
      hdescend, postorder]
    cases k.postorder <;> rfl

theorem descendFirst_feet (h0 : Represents h.cells t f) (hn : n ≠ 0) :
    descendFirst h n t.feet = .ok t.feet := by
  obtain ⟨n, rfl⟩ := Nat.exists_eq_succ_of_ne_zero hn
  obtain ⟨x, hx⟩ := h0.sentinels.2
  simp only [descendFirst, NodeHeap.read_eq (h0.ne_zero (by simp [footprint])) hx, bind,
    Except.bind, if_true]

theorem postOrderIncr_spec (h0 : Focus h.cells t C (.cons p y kids rest)) :
    postOrderIncr h p = .ok ((rest.postorder ++ postAfter C).headD t.feet) := by
  have hp0 : p ≠ 0 := h0.ne_zero (.inr (by simp))
  have hle := h0.length_le
  simp only [postOrderIncr, treeAssert_true hp0, NodeHeap.read_eq hp0 h0.hole.1, bind, Except.bind]
  cases rest with
  | nil =>
    rw [first_nil]
    by_cases hnext : t.nextAt C = 0
    · obtain ⟨_, _, _, _, _, hpost, _⟩ := exists_parent hnext h0.feet_ne_zero
      rw [if_pos hnext, hpost]
      rfl
    · obtain ⟨hfeet, _, hpost, _⟩ := after_of_nextAt hnext
      rw [if_neg hnext, hfeet, hpost,
        descendFirst_feet (n := h.fuel) (represents_plug.mpr h0) (Nat.succ_ne_zero _)]
      rfl
  | cons c z k r =>
    have hc0 : c ≠ 0 := h0.ne_zero (.inr (by simp))
    have hzero : 0 ∉ c :: k.ids := by
      intro hx
      refine h0.ne_zero (b := 0) (.inr ?_) rfl
      simp only [ids_cons, List.mem_cons, List.mem_append] at hx ⊢
      tauto
    simp only [ids_cons, List.length_cons, List.length_append] at hle
    rw [first_cons, if_neg hc0, descendFirst_spec h0.hole.2.2 hzero
      (by unfold NodeHeap.fuel; omega), postorder]
    cases k.postorder <;> rfl

theorem Represents.exists_focus_post (h0 : Represents h.cells t f)
    (hids : f.postorder = l ++ p :: r) :
    ∃ C y kids rest, Focus h.cells t C (.cons p y kids rest) ∧ r = rest.postorder ++ postAfter C := by
  have hmem : p ∈ f.ids := by
    rw [← postorder_perm.mem_iff, hids]
    simp
  obtain ⟨C, y, kids, rest, rfl⟩ := exists_plug hmem
  have hnd := postorder_perm.nodup_iff.mpr h0.nodup_ids
  rw [hids, List.nodup_middle, List.nodup_cons, List.mem_append, not_or] at hnd
  have hsplit : l ++ p :: r =
      postBefore C ++ kids.postorder ++ p :: (rest.postorder ++ postAfter C) := by
    rw [← hids, postorder_plug, postorder]
    simp
  obtain ⟨_, _, hr⟩ := (List.append_cons_inj_of_notMem hnd.1.1 hnd.1.2).mp hsplit
  exact ⟨C, y, kids, rest, represents_plug.mp h0, hr⟩

theorem walkPost_from (h0 : Represents h.cells t f) (hids : f.postorder = l ++ r)
    (hn : r.length < n) : walkPost h t.feet n (r.headD t.feet) = .ok r := by
  induction r generalizing l n with
  | nil =>
    obtain ⟨n, rfl⟩ := Nat.exists_eq_succ_of_ne_zero (Nat.ne_of_gt hn)
    simp [walkPost]
  | cons p r ih =>
    rw [List.length_cons] at hn
    obtain ⟨n, rfl⟩ := Nat.exists_eq_succ_of_ne_zero (by omega : n ≠ 0)
    obtain ⟨C, y, kids, rest, hfocus, hr⟩ := h0.exists_focus_post hids
    have hne : p ≠ t.feet := by
      have hnd := h0.nodup
      simp only [footprint, List.nodup_cons] at hnd
      rintro rfl
      refine hnd.2.2.1 ?_
      rw [← postorder_perm.mem_iff, hids]
      simp
    have hwalk := ih (l := l ++ [p]) (n := n) (by simp [hids]) (by omega)
    rw [hr] at hwalk
    simp only [walkPost, List.headD_cons, if_neg hne, postOrderIncr_spec hfocus, hwalk, bind,
      Except.bind]
    rw [hr]

/-- From `begin_post` to `end_post` the iterator lists the forest in post-order. -/
theorem walkPost_spec (h0 : Represents h.cells t f) :
    ∃ first, t.beginPost h = .ok first ∧ walkPost h t.feet h.fuel first = .ok f.postorder := by
  obtain ⟨x, hx⟩ := h0.sentinels.1
  have hle := h0.length_le
  have hlen : f.postorder.length = f.ids.length := postorder_perm.length_eq
  have hwalk := walkPost_from (l := []) (n := h.fuel) h0 rfl (by unfold NodeHeap.fuel; omega)
  refine ⟨f.postorder.headD t.feet, ?_, hwalk⟩
  simp only [beginPost, NodeHeap.read_eq (h0.ne_zero (by simp [footprint])) hx, bind, Except.bind]
  cases f with
  | nil => simp [postorder]
  | cons a y kids rest =>
    have hnd := h0.nodup
    simp only [footprint, List.nodup_cons, ids_cons, List.mem_cons, List.mem_append, not_or] at hnd
    simp only [ids_cons, List.length_cons, List.length_append] at hle
    rw [first_cons, if_pos (Ne.symm hnd.2.2.1.1), descendFirst_spec h0.links (by
      simp only [List.mem_cons, not_or]
      exact ⟨hnd.1.2.2.1, hnd.1.2.2.2.1⟩) (by unfold NodeHeap.fuel; omega), postorder]
    cases kids.postorder <;> rfl

/-! ## Queries -/

theorem depthFrom_spec (h0 : Focus h.cells t C (.cons p y kids rest))
    (hn : (ancestorsOf C).length < n) : depthFrom h n p = .ok (ancestorsOf C).length := by
  induction n generalizing C p y kids rest with
  | zero => omega
  | succ n ih =>
    have hp0 : p ≠ 0 := h0.ne_zero (.inr (by simp))
    simp only [depthFrom, NodeHeap.read_eq hp0 h0.hole.1, bind, Except.bind]
    by_cases hnext : t.nextAt C = 0
    · have hpar : parentAt C ≠ 0 := parentAt_ne_zero h0.nodup_ring (.inr hnext)
      obtain ⟨z, rest', D, hplug, _, _, hancestors⟩ := exists_parent hnext h0.feet_ne_zero
      obtain ⟨kids', hplug⟩ := hplug (.cons p y kids rest)
      rw [hancestors, List.length_cons] at hn
      rw [if_neg hpar, ih (h0.reframe hplug) (by omega), hancestors]
      rfl
    · rw [if_pos (parentAt_eq_zero hnext), (after_of_nextAt hnext).2.2.2]
      rfl

theorem depthFrom_fuel (h0 : Focus h.cells t C (.cons p y kids rest)) :
    depthFrom h h.fuel p = .ok (ancestorsOf C).length := by
  have hle := h0.length_le
  exact depthFrom_spec h0 (by unfold NodeHeap.fuel; omega)

theorem depth_spec (h0 : Focus h.cells t C (.cons p y kids rest)) :
    Tree.depth h p = if (ancestorsOf C).length < 2 ^ 31 then .ok (ancestorsOf C).length
      else .error .overflow := by
  have hp0 : p ≠ 0 := h0.ne_zero (.inr (by simp))
  simp only [Tree.depth, treeAssert_true hp0, depthFrom_fuel h0, bind, Except.bind]

theorem countSiblings_spec (h0 : Links h.cells par prev 0 (.cons a x kids rest))
    (hzero : 0 ∉ a :: rest.ids) (hn : rest.ids.length < n) :
    countSiblings h n a = .ok (.ofNat rest.roots.length) := by
  induction rest generalizing prev a x kids n with
  | nil =>
    obtain ⟨n, rfl⟩ := Nat.exists_eq_succ_of_ne_zero (Nat.ne_of_gt hn)
    have ha0 : a ≠ 0 := fun hx => hzero (by simp [hx])
    simp only [countSiblings, NodeHeap.read_eq ha0 h0.1, bind, Except.bind, first_nil, if_true]
    rfl
  | cons b z k r _ ihr =>
    simp only [ids_cons, List.length_cons, List.length_append] at hn
    obtain ⟨n, rfl⟩ := Nat.exists_eq_succ_of_ne_zero (by omega : n ≠ 0)
    have ha0 : a ≠ 0 := fun hx => hzero (by simp [hx])
    have hb0 : b ≠ 0 := fun hx => hzero (by simp [hx])
    have hcount := ihr (n := n) h0.2.2 (fun hx => hzero (by
      simp only [ids_cons, List.mem_cons, List.mem_append] at hx ⊢
      tauto)) (by omega)
    simp only [countSiblings, NodeHeap.read_eq ha0 h0.1, bind, Except.bind, first_cons, if_neg hb0,
      hcount]
    rw [roots_cons, List.length_cons, UInt32.ofNat_add]
    rfl

theorem Focus.zero_notMem (h0 : Focus h.cells t C g) : 0 ∉ g.ids :=
  fun hx => h0.ne_zero (.inr hx) rfl

theorem numberOfChildren_spec (h0 : Focus h.cells t C (.cons p y kids rest)) :
    numberOfChildren h p = .ok (.ofNat kids.roots.length) := by
  have hp0 : p ≠ 0 := h0.ne_zero (.inr (by simp))
  have hle := h0.length_le
  have hzero := h0.zero_notMem
  simp only [numberOfChildren, NodeHeap.read_eq hp0 h0.hole.1, bind, Except.bind]
  cases kids with
  | nil => rfl
  | cons c z k r =>
    simp only [ids_cons, List.length_cons, List.length_append, List.mem_cons, List.mem_append,
      not_or] at hle hzero
    have hcount := countSiblings_spec (n := h.fuel) h0.hole.2.1 (by
      simp only [List.mem_cons, not_or]
      tauto) (by unfold NodeHeap.fuel; omega)
    rw [first_cons, if_neg (Ne.symm hzero.2.1.1), hcount, roots_cons, List.length_cons,
      UInt32.ofNat_add]
    rfl

theorem countUpTo_spec (h0 : Links h.cells par prev 0 (.cons a x kids rest))
    (hnd : (a :: rest.ids).Nodup) (hzero : 0 ∉ a :: rest.ids) (hn : rest.ids.length < n) :
    countUpTo h (rest.last a) n a = .ok (.ofNat rest.roots.length) := by
  induction rest generalizing prev a x kids n with
  | nil =>
    obtain ⟨n, rfl⟩ := Nat.exists_eq_succ_of_ne_zero (Nat.ne_of_gt hn)
    simp [countUpTo]
  | cons b z k r _ ihr =>
    simp only [ids_cons, List.length_cons, List.length_append] at hn
    obtain ⟨n, rfl⟩ := Nat.exists_eq_succ_of_ne_zero (by omega : n ≠ 0)
    have ha0 : a ≠ 0 := fun hx => hzero (by simp [hx])
    have hne : a ≠ r.last b := by
      intro hx
      have hmem := last_mem_of_ne (f := cons b z k r) (d := a) (by simp)
      rw [last_cons, ← hx] at hmem
      exact (List.nodup_cons.mp hnd).1 hmem
    have hcount := ihr (n := n) h0.2.2 (by
      have hnd' := (List.nodup_cons.mp hnd).2
      rw [ids_cons, List.nodup_cons, List.mem_append, not_or, List.nodup_append'] at hnd'
      exact List.nodup_cons.mpr ⟨hnd'.1.2, hnd'.2.2.1⟩) (fun hx => hzero (by
      simp only [ids_cons, List.mem_cons, List.mem_append] at hx ⊢
      tauto)) (by omega)
    simp only [countUpTo, last_cons, if_neg hne, NodeHeap.read_eq ha0 h0.1, bind, Except.bind,
      first_cons, hcount]
    rw [roots_cons, List.length_cons, UInt32.ofNat_add]
    rfl

/-- The two ways to count the children agree. -/
theorem iteratorNumberOfChildren_spec (h0 : Focus h.cells t C (.cons p y kids rest)) :
    iteratorNumberOfChildren h p = .ok (.ofNat kids.roots.length) := by
  have hp0 : p ≠ 0 := h0.ne_zero (.inr (by simp))
  have hle := h0.length_le
  have hzero := h0.zero_notMem
  have hnd := h0.nodup_ids
  simp only [iteratorNumberOfChildren, NodeHeap.read_eq hp0 h0.hole.1, bind, Except.bind]
  cases kids with
  | nil => rfl
  | cons c z k r =>
    simp only [ids_cons, List.length_cons, List.length_append, List.mem_cons, List.mem_append,
      not_or, List.nodup_cons, List.nodup_append', List.cons_append] at hle hzero hnd
    have hcount := countUpTo_spec (n := h.fuel) h0.hole.2.1
      (List.nodup_cons.mpr ⟨hnd.2.1.1.2, hnd.2.2.1.2.1⟩) (by
        simp only [List.mem_cons, not_or]
        tauto) (by unfold NodeHeap.fuel; omega)
    rw [first_cons, last_cons, if_neg (Ne.symm hzero.2.1), hcount, roots_cons, List.length_cons,
      UInt32.ofNat_add]
    rfl

theorem skipSiblings_spec (h0 : Links h.cells par prev 0 f) (hzero : 0 ∉ f.ids)
    (hn : n ≤ f.roots.length) : skipSiblings h n (f.first 0) = .ok (f.roots.getD n 0) := by
  induction n generalizing f prev with
  | zero => cases f <;> rfl
  | succ n ih =>
    cases f with
    | nil =>
      rw [roots_nil, List.length_nil] at hn
      omega
    | cons a x kids rest =>
      simp only [ids_cons, List.mem_cons, List.mem_append, not_or] at hzero
      rw [roots_cons, List.length_cons] at hn
      have ha0 : a ≠ 0 := Ne.symm hzero.1
      rw [first_cons]
      simp only [skipSiblings, treeAssert_true ha0, NodeHeap.read_eq ha0 h0.1, bind, Except.bind]
      rw [ih h0.2.2 hzero.2.2 (by omega)]
      rfl

/-- `child` returns null for the number of children. -/
theorem child_spec {num : UInt32} (h0 : Focus h.cells t C (.cons p y kids rest))
    (hn : num.toNat ≤ kids.roots.length) : child h p num = .ok (kids.roots.getD num.toNat 0) := by
  have hp0 : p ≠ 0 := h0.ne_zero (.inr (by simp))
  have hzero := h0.zero_notMem
  simp only [ids_cons, List.mem_cons, List.mem_append, not_or] at hzero
  simp only [child, NodeHeap.read_eq hp0 h0.hole.1, bind, Except.bind]
  exact skipSiblings_spec h0.hole.2.1 hzero.2.1 hn

/-! ## debug_verify_consistency -/

end Tree
end DepTaint
