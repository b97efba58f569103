import DepTaint.TreeErasure

/-!
# TreeCopy

What the operations of `tree.hh` that copy nodes from another tree do to the represented forest.

`replace` walks over the subtree it copies and over the copy at the same time, one up and down with
the other. `copyRow_spec` follows it over the trees of a row: at the end both are at the last root.

* `replace_spec`: the node at the position gives way to a copy of the subtree.
* `copy_spec`, `assign_spec`: a copied tree has the shape and the data of the original.
-/

namespace DepTaint
namespace Tree

open Forest

variable {α : Type} {h h' : NodeHeap α} {t : Tree} {C D : Context Ptr α}
  {f f' g g' k gk gr kids rest trail : Forest Ptr α} {par prev next a b c e p q first last : Ptr}
  {w x y : α} {n m : Nat}

/-! ## Other nodes -/

/-- An operation leaves alone what is not of its tree. -/
theorem Updates.apart (hu : Updates h h' t f f') (hsome : (h.cells b).isSome = true)
    (hb : b ∉ t.footprint f) : b ∉ t.footprint f' ∧ h'.cells b = h.cells b := by
  simp only [footprint, List.mem_cons, not_or] at hb
  have hf' : b ∉ f'.ids := by
    intro hx
    rw [hu.fresh b hx hb.2.2] at hsome
    cases hsome
  refine ⟨?_, hu.frame b ?_ hf'⟩
  · simp only [footprint, List.mem_cons, not_or]
    exact ⟨hb.1, hb.2.1, hf'⟩
  · simp only [footprint, List.mem_cons, not_or]
    exact hb

theorem Updates.links (hu : Updates h h' t f f') (hl : Links h.cells par prev next g)
    (hapart : ∀ b ∈ g.ids, b ∉ t.footprint f) :
    Links h'.cells par prev next g ∧ ∀ b ∈ g.ids, b ∉ t.footprint f' := by
  have hkeep : ∀ b ∈ g.ids, b ∉ t.footprint f' ∧ h'.cells b = h.cells b :=
    fun b hb => hu.apart (hl.isSome b hb) (hapart b hb)
  exact ⟨hl.congr fun b hb => (hkeep b hb).2, fun b hb => (hkeep b hb).1⟩

theorem Links.length_le (hl : Links h.cells par prev next g) (hnd : g.ids.Nodup) :
    g.ids.length ≤ h.live.card := by
  rw [← List.toFinset_card_of_nodup hnd]
  exact Finset.card_le_card fun b hb => (h.mem_live b).mpr (hl.isSome b (List.mem_toFinset.mp hb))

/-- The last of some siblings. -/
theorem Links.last_cell {m : Cells α} (hl : Links m par prev next g) (hg : g ≠ .nil) (d : Ptr) :
    ∃ n, m (g.last d) = some n ∧ n.parent = par ∧ n.nextSibling = next := by
  induction g generalizing prev d with
  | nil => exact absurd rfl hg
  | cons a x kids rest _ ih =>
    obtain ⟨ha, _, hr⟩ := hl
    cases rest with
    | nil => exact ⟨_, ha, rfl, rfl⟩
    | cons b y k r => exact ih hr (by simp) a

/-! ## A child of the parent -/

theorem along_append : along (f.append g) C = along g (along f C) := by
  induction f generalizing C with
  | nil => rfl
  | cons a x kids rest _ ih => exact ih

/-- The siblings before a hole, and the parent. -/
theorem exists_along (hnext : t.nextAt C = 0) (hfeet : t.feet ≠ 0) :
    ∃ f y rest D, C = along f (.below (parentAt C) y rest :: D) := by
  induction C with
  | nil => exact absurd hnext hfeet
  | cons fr C ih =>
    cases fr with
    | below id x rest => exact ⟨.nil, x, rest, C, rfl⟩
    | beside id x kids =>
      obtain ⟨f, y, rest, D, hC⟩ := ih hnext
      refine ⟨f.append (.cons id x kids .nil), y, rest, D, ?_⟩
      rw [along_append, parentAt_beside, ← hC]
      rfl

/-- `append_child` of the parent puts the new node after its last child. -/
theorem Focus.appendSibling (A : Allocator) (h0 : Focus h.cells t D (.cons e w kids .nil))
    (hnext : t.nextAt D = 0) (x : α) :
    ∃ h' a, t.appendChild A h (parentAt D) x = .ok (h', a) ∧
      Focus h'.cells t (.beside e w kids :: D) (.cons a x .nil .nil) ∧
      Updates h h' t (plug D (.cons e w kids .nil))
        (plug (.beside e w kids :: D) (.cons a x .nil .nil)) := by
  obtain ⟨f, y, rest, D', hD⟩ := exists_along hnext h0.feet_ne_zero
  generalize parentAt D = id at hD ⊢
  have hplug : plug D (.cons e w kids .nil) =
      plug D' (.cons id y (f.append (.cons e w kids .nil)) rest) := by
    rw [hD, plug_along, plug_below]
  obtain ⟨h', a, hrun, hfocus, hupdates⟩ := appendChild_spec A (h0.reframe hplug) x
  have hplug' : plug D' (.cons id y ((f.append (.cons e w kids .nil)).snoc a x) rest) =
      plug (.beside e w kids :: D) (.cons a x .nil .nil) := by
    rw [plug_beside, hD, plug_along, plug_below, snoc, append_assoc, cons_append, nil_append]
  exact ⟨h', a, hrun, hfocus.reframe hplug', hplug' ▸ hplug ▸ hupdates⟩

/-! ## The loop that copies -/

theorem leave_up {start : Ptr} {v u : TreeNode α} (ha : a ≠ 0) (hv : h.cells a = some v)
    (hb : b ≠ 0) (hu : h.cells b = some u) (hnext : v.nextSibling = 0) (hstart : a ≠ start)
    (hpar : v.parent ≠ 0) :
    leave start (n + 1) h a b = leave start n h v.parent u.parent := by
  simp only [leave, NodeHeap.read_eq ha hv, NodeHeap.read_eq hb hu, treeAssert_true hpar, bind,
    Except.bind]
  rw [if_pos ⟨hnext, hstart⟩]

theorem leave_stop {start : Ptr} {v : TreeNode α} (ha : a ≠ 0) (hv : h.cells a = some v)
    (hstop : v.nextSibling ≠ 0 ∨ a = start) : leave start (n + 1) h a b = .ok (a, b) := by
  simp only [leave, NodeHeap.read_eq ha hv, bind, Except.bind]
  rw [if_neg (by tauto)]

section Copy

variable (A : Allocator)

/-- What the loop of `replace` does after a node without children. -/
def copyNext (t : Tree) (start_from last : Ptr) (m n : Nat) (h : NodeHeap α)
    (current_from toit : Ptr) : Except TreeFault (NodeHeap α) := do
  let (current_from, toit) ← leave start_from m h current_from toit
  let x ← h.read current_from
  if x.nextSibling ≠ last then do
    let y ← h.read x.nextSibling
    let p ← h.read toit
    let (h, toit) ← t.appendChild A h p.parent y.data
    t.copyChildren A start_from last n h x.nextSibling toit
  else .ok h

theorem copyChildren_succ (start_from : Ptr) {c : Ptr} {v : TreeNode α} (hc : c ≠ 0)
    (hv : h.cells c = some v) :
    t.copyChildren A start_from last (n + 1) h c e =
      if v.firstChild ≠ 0 then do
        let y ← h.read v.firstChild
        let (h, toit) ← t.appendChild A h e y.data
        if v.firstChild ≠ last then t.copyChildren A start_from last n h v.firstChild toit
        else .ok h
      else t.copyNext A start_from last h.fuel n h c e := by
  simp only [copyChildren, copyNext, treeAssert_true hc, NodeHeap.read_eq hc hv, bind, Except.bind]

/-- The loop over the trees of a row. `e` is the copy of the first root, and has no children yet;
the roots after it are put after `e`. -/
theorem copyRow_spec {start : Ptr} (hg : g = .cons c w gk gr)
    (h0 : Focus h.cells t D (.cons e w .nil trail)) (hl : Links h.cells par prev next g)
    (hnd : g.ids.Nodup) (hzero : 0 ∉ g.ids) (hstart : start ∈ g.ids → gr = .nil ∧ start = c)
    (hlast : last ∉ g.ids) (hapart : ∀ b ∈ g.ids, b ∉ t.footprint (plug D (.cons e w .nil trail)))
    (htrail : gr ≠ .nil → trail = .nil ∧ t.nextAt D = 0) (n : Nat) :
    ∃ h', ∃ g' : Forest Ptr α, ∃ m, g'.shape = g.shape ∧ g'.first 0 = e ∧
      Focus h'.cells t D (g'.append trail) ∧
      Updates h h' t (plug D (.cons e w .nil trail)) (plug D (g'.append trail)) ∧
      h'.fuel < m + g.ids.length ∧
      t.copyChildren A start last (n + g.ids.length) h c e =
        t.copyNext A start last m n h' (g.last 0) (g'.last 0) := by
  induction g generalizing h par prev next D c w e gk gr trail n with
  | nil => cases hg
  | cons c' w' gk' gr' ihk ihr =>
    injection hg with hcc hww hkk hrr
    subst hcc hww hkk hrr
    simp only [ids_cons, List.mem_cons, List.mem_append, not_or] at hzero hlast hstart hapart
    simp only [ids_cons, List.nodup_cons, List.mem_append, not_or, List.nodup_append'] at hnd
    obtain ⟨⟨hck, hcr⟩, hkids, hrest, hdisj⟩ := hnd
    have hc0 : c' ≠ 0 := Ne.symm hzero.1
    have he0 : e ≠ 0 := h0.ne_zero (.inr (by simp))
    obtain ⟨hc, hk, hr⟩ := hl
    have hlength : n + (Forest.cons c' w' gk' gr').ids.length =
        n + gr'.ids.length + gk'.ids.length + 1 := by
      simp only [ids_cons, List.length_cons, List.length_append]
      omega
    -- down to the children, and back up to `c'`
    have hdown : ∃ h1, ∃ k : Forest Ptr α, ∃ m, k.shape = gk'.shape ∧
        Focus h1.cells t D (.cons e w' k trail) ∧
        Updates h h1 t (plug D (.cons e w' .nil trail)) (plug D (.cons e w' k trail)) ∧
        h1.fuel < m + (gk'.ids.length + 1) ∧
        t.copyChildren A start last (n + (Forest.cons c' w' gk' gr').ids.length) h c' e =
          t.copyNext A start last m (n + gr'.ids.length) h1 c' e := by
      rw [hlength, copyChildren_succ A start hc0 hc]
      cases gk' with
      | nil => exact ⟨h, .nil, h.fuel, rfl, h0, .refl (represents_plug.mpr h0), by simp, by simp⟩
      | cons c1 w1 k1 r1 =>
        have hc1 : c1 ≠ 0 := fun h0 => hzero.2.1 (by simp [h0])
        have hc1last : c1 ≠ last := fun h0 => hlast.2.1 (by simp [h0])
        have hstart1 : start ∉ (Forest.cons c1 w1 k1 r1).ids := by
          intro hx
          obtain ⟨-, rfl⟩ := hstart (.inr (.inl hx))
          exact hck hx
        obtain ⟨h1, e1, hrun, hfocus1, hupdates1⟩ := appendChild_spec A h0 w1
        obtain ⟨hk1, hapart1⟩ := hupdates1.links hk fun b hb => hapart b (.inr (.inl hb))
        obtain ⟨h2, k, m, hshape, -, hfocus2, hupdates2, hm, hloop⟩ :=
          ihk rfl (hfocus1.reframe (D := .below e w' trail :: D) rfl) hk1 hkids hzero.2.1
            (fun hx => absurd hx hstart1) hlast.2.1 hapart1 (fun _ => ⟨rfl, rfl⟩)
            (n + gr'.ids.length)
        rw [append_nil] at hfocus2 hupdates2
        -- the last child and its copy
        have hk2 := (hupdates2.links hk1 hapart1).1
        have hk0 : k ≠ .nil := by
          rintro rfl
          cases hshape
        obtain ⟨v, hv, hvpar, hvnext⟩ := hk2.last_cell (by simp) 0
        obtain ⟨u, hu, hupar, -⟩ := hfocus2.hole.last_cell hk0 0
        rw [parentAt_below] at hupar
        have hmem : (Forest.cons c1 w1 k1 r1).last 0 ∈ (Forest.cons c1 w1 k1 r1).ids :=
          last_mem_of_ne (by simp)
        have hv0 : (Forest.cons c1 w1 k1 r1).last 0 ≠ 0 := fun h0 => hzero.2.1 (h0 ▸ hmem)
        have hu0 : k.last 0 ≠ 0 := hfocus2.ne_zero (.inr (last_mem_of_ne hk0))
        have hvstart : (Forest.cons c1 w1 k1 r1).last 0 ≠ start := fun h0 => hstart1 (h0 ▸ hmem)
        have hlen := hk2.length_le hkids
        obtain ⟨m, rfl⟩ := Nat.exists_eq_succ_of_ne_zero (by
          simp only [NodeHeap.fuel] at hm
          omega : m ≠ 0)
        refine ⟨h2, k, m, hshape, hfocus2.reframe rfl, hupdates1.trans hupdates2, by omega, ?_⟩
        simp only [first_cons, if_pos hc1, NodeHeap.read_eq hc1 hk.1, hrun, if_pos hc1last, bind,
          Except.bind, hloop]
        rw [copyNext, copyNext, leave_up hv0 hv hu0 hu hvnext hvstart (hvpar ▸ hc0), hvpar, hupar]
    obtain ⟨h1, k, m, hshape, hfocus1, hupdates1, hm, hloop⟩ := hdown
    cases gr' with
    | nil =>
      refine ⟨h1, .cons e w' k .nil, m, ?_, rfl, hfocus1, hupdates1, ?_, hloop⟩
      · rw [shape_cons, shape_cons, hshape]
      · simp only [ids_cons, ids_nil, List.append_nil, List.length_cons]
        exact hm
    | cons c2 w2 k2 r2 =>
      obtain ⟨rfl, hnext⟩ := htrail (by simp)
      have hc2 : c2 ≠ 0 := fun h0 => hzero.2.2 (by simp [h0])
      have hc2last : c2 ≠ last := fun h0 => hlast.2.2 (by simp [h0])
      have hstart2 : start ∉ (Forest.cons c2 w2 k2 r2).ids :=
        fun hx => absurd (hstart (.inr (.inr hx))).1 (by simp)
      have hlinks : Links h.cells par prev next (.cons c' w' gk' (.cons c2 w2 k2 r2)) :=
        ⟨hc, hk, hr⟩
      obtain ⟨hlinks1, hapart1⟩ := hupdates1.links hlinks (by simpa using hapart)
      have hlen := hlinks1.2.1.length_le hkids
      obtain ⟨m, rfl⟩ := Nat.exists_eq_succ_of_ne_zero (by
        simp only [NodeHeap.fuel] at hm
        omega : m ≠ 0)
      -- the next root is appended to the parent of `e`
      obtain ⟨h2, e2, hrun, hfocus2, hupdates2⟩ := hfocus1.appendSibling A hnext w2
      obtain ⟨hr2, hapart2⟩ := hupdates2.links hlinks1.2.2 fun b hb => hapart1 b (by
        rw [ids_cons, List.mem_cons, List.mem_append]
        exact .inr (.inr hb))
      obtain ⟨h3, g, m3, hshape3, hfirst3, hfocus3, hupdates3, hm3, hloop3⟩ :=
        ihr rfl hfocus2 hr2 hrest hzero.2.2 (fun hx => absurd hx hstart2) hlast.2.2 hapart2
          (fun _ => ⟨rfl, hnext⟩) n
      refine ⟨h3, .cons e w' k g, m3, ?_, rfl, ?_, ?_, ?_, ?_⟩
      · rw [shape_cons, shape_cons, hshape, hshape3]
      · exact hfocus3.reframe rfl
      · exact (hupdates1.trans hupdates2).trans hupdates3
      · simp only [ids_cons, List.length_cons, List.length_append] at hm3 ⊢
        omega
      · have hlast3 : g.last e = g.last 0 := by
          refine last_eq_of_ne ?_ e 0
          rintro rfl
          cases hshape3
        have he1 := hfocus1.hole.1
        have hread2 := NodeHeap.read_eq hc2 hlinks1.2.2.1
        simp only [hloop, copyNext, leave_stop hc0 hlinks1.1 (.inl hc2), bind, Except.bind,
          NodeHeap.read_eq hc0 hlinks1.1, NodeHeap.read_eq he0 he1, first_cons, if_pos hc2last,
          hread2, hrun, hloop3, last_cons, hlast3]

/-- The subtree at `q` is copied below `e`. -/
theorem copyChildren_spec (h0 : Focus h.cells t C (.cons e x .nil rest))
    (hl : Links h.cells par prev next (.cons q x g .nil))
    (hnd : (Forest.cons q x g .nil).ids.Nodup) (hzero : 0 ∉ (Forest.cons q x g .nil).ids)
    (hnext : next ∉ (Forest.cons q x g .nil).ids)
    (hapart : ∀ b ∈ (Forest.cons q x g .nil).ids, b ∉ t.footprint (plug C (.cons e x .nil rest))) :
    ∃ h', ∃ k : Forest Ptr α, t.copyChildren A q next h.fuel h q e = .ok h' ∧ k.shape = g.shape ∧
      Focus h'.cells t C (.cons e x k rest) ∧
      Updates h h' t (plug C (.cons e x .nil rest)) (plug C (.cons e x k rest)) := by
  have hq0 : q ≠ 0 := fun h0 => hzero (by simp [h0])
  have hlen := hl.length_le hnd
  obtain ⟨n, hn⟩ : ∃ n, h.fuel = n + (Forest.cons q x g .nil).ids.length :=
    ⟨h.fuel - (Forest.cons q x g .nil).ids.length, by unfold NodeHeap.fuel; omega⟩
  obtain ⟨h', g', m, hshape, hfirst, hfocus, hupdates, hm, hloop⟩ :=
    copyRow_spec A rfl h0 hl hnd hzero (fun _ => ⟨rfl, rfl⟩) hnext hapart
      (fun hx => absurd rfl hx) n
  cases g' with
  | nil => cases hshape
  | cons e' x' k r =>
    rw [shape_cons, shape_cons] at hshape
    injection hshape with _ hx hk hr
    have hr : r = .nil := by
      cases r with
      | nil => rfl
      | cons => cases hr
    subst hx hr
    rw [first_cons] at hfirst
    subst hfirst
    have hl' := (hupdates.links hl hapart).1
    have hlen' := hl'.length_le hnd
    obtain ⟨m, rfl⟩ := Nat.exists_eq_succ_of_ne_zero (by
      simp only [NodeHeap.fuel] at hm
      omega : m ≠ 0)
    refine ⟨h', k, ?_, hk, hfocus, hupdates⟩
    rw [hn, hloop, last_cons, last_nil, copyNext, leave_stop hq0 hl'.1 (.inr rfl)]
    simp [NodeHeap.read_eq hq0 hl'.1, bind, Except.bind]

/-! ## replace -/

/-- Put a node without children in the place of another one. -/
theorem Focus.exchange (h0 : Focus h.cells t C (.cons p y .nil rest)) (hfresh : h.cells a = none)
    (ha : a ≠ 0) (x : α) :
    ∃ h1 h2 h3 h4 h5, linkLeft (h.put a { data := x }) (parentAt C) (t.prevAt C) a = .ok h1 ∧
      h1.modify a (fun n => { n with prevSibling := t.prevAt C }) = .ok h2 ∧
      linkRight h2 (parentAt C) (rest.first (t.nextAt C)) a = .ok h3 ∧
      h3.modify a (fun n => { n with
        nextSibling := rest.first (t.nextAt C), parent := parentAt C }) = .ok h4 ∧
      h4.dealloc p = .ok h5 ∧ Focus h5.cells t C (.cons a x .nil rest) ∧
      Updates h h5 t (plug C (.cons p y .nil rest)) (plug C (.cons a x .nil rest)) := by
  have hnot : ¬ (a ∈ t.ring C ∨ a ∈ (Forest.cons p y .nil rest).ids) := by
    intro hx
    have hsome := h0.isSome hx
    rw [hfresh] at hsome
    cases hsome
  simp only [ids_cons, ids_nil, List.nil_append, List.mem_cons, not_or] at hnot
  obtain ⟨haring, hap, harest⟩ := hnot
  have hp0 : p ≠ 0 := h0.ne_zero (.inr (by simp))
  have hpring : p ∉ t.ring C := fun hx => h0.apart p (by simp) (List.mem_cons_of_mem _ hx)
  have hnd := h0.nodup_ring
  have hids := h0.nodup_ids
  simp only [ids_cons, ids_nil, List.nil_append, List.nodup_cons] at hids
  have hapart : ∀ b ∈ rest.ids, b ∉ 0 :: t.ring C := fun b hb => h0.apart b (by simp [hb])
  obtain ⟨hp, _, hr⟩ := h0.hole
  have hframe0 : ∀ b, b ≠ a → (h.put a { data := x }).cells b = h.cells b :=
    fun b hb => Function.update_of_ne hb _ _
  -- what stands before, and after, is linked to `a`
  obtain ⟨h1, hl1, hC1, hframe1⟩ := left_step (h := h.put a { data := x })
    (h0.context.update haring) hnd a
  have ha1 : h1.cells a = some { data := x } := by
    rw [hframe1 a haring]
    simp
  have hmodify2 := NodeHeap.modify_eq ha ha1 fun n => { n with prevSibling := t.prevAt C }
  generalize hh2 : h1.put a _ = h2 at hmodify2
  have hframe2 : ∀ b, b ≠ a → h2.cells b = h1.cells b := by
    intro b hb
    rw [← hh2, NodeHeap.cells_put, Function.update_of_ne hb]
  have hkeep2 : ∀ b, b ∉ t.ring C → b ≠ a → h2.cells b = h.cells b := by
    intro b hb hba
    rw [hframe2 b hba, hframe1 b hb, hframe0 b hba]
  have hC2 : ContextLinks h2.cells t C a (rest.last p) := by
    rw [← hh2]
    exact hC1.update haring
  have hr2 : Links h2.cells (parentAt C) p (t.nextAt C) rest :=
    hr.congr fun b hb => hkeep2 b (fun hx => hapart b hb (List.mem_cons_of_mem _ hx))
      fun he => harest (he ▸ hb)
  have ha2 : h2.cells a = some { prevSibling := t.prevAt C, data := x } := by
    rw [← hh2, NodeHeap.cells_put, Function.update_self]
  obtain ⟨h3, hl3, hC3, hr3, hframe3⟩ := right_step hC2 hr2 hnd hids.2 hapart a
  have ha3 := (hframe3 a haring harest).trans ha2
  have hp3 := (hframe3 p hpring hids.1).trans ((hkeep2 p hpring (Ne.symm hap)).trans hp)
  have hmodify4 := NodeHeap.modify_eq ha ha3 fun n => { n with
    nextSibling := rest.first (t.nextAt C), parent := parentAt C }
  generalize hh4 : h3.put a _ = h4 at hmodify4
  have hframe4 : ∀ b, b ≠ a → h4.cells b = h3.cells b := by
    intro b hb
    rw [← hh4, NodeHeap.cells_put, Function.update_of_ne hb]
  have hp4 := (hframe4 p (Ne.symm hap)).trans hp3
  have hcells5 : ∀ b, b ≠ p → b ≠ a → (h4.remove p).cells b = h3.cells b := by
    intro b hbp hba
    rw [NodeHeap.cells_remove, Function.update_of_ne hbp, hframe4 b hba]
  have hfocus : Focus (h4.remove p).cells t C (.cons a x .nil rest) := by
    refine ⟨hC3.congr fun b hb => hcells5 b ?_ ?_,
      ⟨?_, links_nil, hr3.congr fun b hb => hcells5 b ?_ ?_⟩, hnd, ?_, fun b hb => ?_⟩
    · exact fun he => hpring (he ▸ hb)
    · exact fun he => haring (he ▸ hb)
    · rw [NodeHeap.cells_remove, Function.update_of_ne hap, ← hh4, NodeHeap.cells_put,
        Function.update_self]
      rfl
    · exact fun he => hids.1 (he ▸ hb)
    · exact fun he => harest (he ▸ hb)
    · simpa using ⟨harest, hids.2⟩
    · rcases List.mem_cons.mp hb with rfl | hb
      · simpa using ⟨ha, haring⟩
      · exact hapart b (by simpa using hb)
  refine ⟨h1, h2, h3, h4, h4.remove p, hl1, hmodify2, hl3, hmodify4, NodeHeap.dealloc_eq hp0 hp4,
    hfocus, hfocus.updates (fun b hb hn => ?_) (fun b hb hn => ?_) fun b hb hb' hn => ?_⟩
  · obtain rfl | hb := List.mem_cons.mp hb
    · exact hfresh
    · exact absurd (List.mem_cons_of_mem _ hb) hn
  · obtain rfl | hb := List.mem_cons.mp hb
    · rw [NodeHeap.cells_remove, Function.update_self]
    · exact absurd (List.mem_cons_of_mem _ hb) hn
  · simp only [ids_cons, ids_nil, List.nil_append, List.mem_cons, not_or] at hb' hn
    rw [hcells5 b hb'.1 hn.1, hframe3 b hb hb'.2, hkeep2 b hb hn.1]

/-- What `replace` reads of a node and the subtree below it. -/
theorem Focus.subtree (h0 : Focus h.cells t C (.cons p y kids rest)) :
    Links h.cells (parentAt C) (t.prevAt C) (rest.first (t.nextAt C)) (.cons p y kids .nil) ∧
    (Forest.cons p y kids .nil).ids.Nodup ∧ 0 ∉ (Forest.cons p y kids .nil).ids ∧
    rest.first (t.nextAt C) ∉ (Forest.cons p y kids .nil).ids := by
  obtain ⟨hp, hk, _⟩ := h0.hole
  have hnd := h0.nodup_ids
  have hzero := h0.zero_notMem
  simp only [ids_cons, List.nodup_cons, List.mem_append, not_or, List.nodup_append',
    List.mem_cons] at hnd hzero
  refine ⟨⟨hp, hk, links_nil⟩, ?_, ?_, ?_⟩
  · simpa using ⟨hnd.1.1, hnd.2.1⟩
  · simpa using ⟨hzero.1, hzero.2.1⟩
  · simp only [ids_cons, ids_nil, List.append_nil, List.mem_cons, not_or]
    cases rest with
    | nil =>
      rw [first_nil]
      by_cases hnext : t.nextAt C = 0
      · rw [hnext]
        exact ⟨hzero.1, hzero.2.1⟩
      · have hfeet : ∀ b ∈ (Forest.cons p y kids .nil).ids, t.feet ≠ b := by
          rintro b hb rfl
          exact h0.apart _ hb (List.mem_cons_of_mem _ feet_mem_ring)
        rw [(after_of_nextAt hnext).1]
        exact ⟨hfeet p (by simp), fun hx => hfeet t.feet (by simp [hx]) rfl⟩
    | cons b z k r =>
      rw [first_cons]
      refine ⟨fun he => hnd.1.2 (by simp [he]), fun hb => ?_⟩
      exact hnd.2.2.2 hb (by simp)

/-- The node at `p` gives way to a copy of the subtree at `q`, which is not of the same tree. -/
theorem replace_spec (h0 : Focus h.cells t C (.cons p y kids rest))
    (hl : Links h.cells par prev next (.cons q x g .nil))
    (hnd : (Forest.cons q x g .nil).ids.Nodup) (hzero : 0 ∉ (Forest.cons q x g .nil).ids)
    (hnext : next ∉ (Forest.cons q x g .nil).ids)
    (hapart : ∀ b ∈ (Forest.cons q x g .nil).ids,
      b ∉ t.footprint (plug C (.cons p y kids rest))) :
    ∃ h', ∃ a, ∃ k : Forest Ptr α, t.replace A h p q = .ok (h', a) ∧ k.shape = g.shape ∧
      Focus h'.cells t C (.cons a x k rest) ∧
      Updates h h' t (plug C (.cons p y kids rest)) (plug C (.cons a x k rest)) := by
  have hq0 : q ≠ 0 := fun h0 => hzero (by simp [h0])
  have hpring : p ∉ t.ring C := fun hx => h0.apart p (by simp) (List.mem_cons_of_mem _ hx)
  have hhead : p ≠ t.head := fun he => hpring (he ▸ head_mem_ring)
  have hp0 : p ≠ 0 := h0.ne_zero (.inr (by simp))
  obtain ⟨h1, hh1, hfocus1, hupdates1⟩ := eraseChildren_spec h0
  obtain ⟨hl1, hapart1⟩ := hupdates1.links hl hapart
  have hfresh : h1.cells (A.allocate h1.live) = none := NodeHeap.cells_allocate A
  have ha : A.allocate h1.live ≠ 0 := A.ne_null _
  simp only [replace, treeAssert_true hhead, hh1, NodeHeap.read_eq hq0 hl1.1, NodeHeap.alloc, bind,
    Except.bind]
  generalize A.allocate h1.live = a at hfresh ha ⊢
  have hp1 := hfocus1.hole.1
  have hpa : p ≠ a := by
    rintro rfl
    rw [hp1] at hfresh
    cases hfresh
  have hread := NodeHeap.read_eq (h := h1.put a { data := x }) hp0 (by
    rw [NodeHeap.cells_put, Function.update_of_ne hpa]
    exact hp1)
  obtain ⟨h2, h3, h4, h5, h6, hleft, hmodify3, hright, hmodify5, hdealloc, hfocus6, hupdates6⟩ :=
    hfocus1.exchange hfresh ha x
  have hupdates := hupdates1.trans hupdates6
  obtain ⟨hl6, hapart6⟩ := hupdates.links hl hapart
  obtain ⟨h7, k, hcopy, hshape, hfocus7, hupdates7⟩ :=
    copyChildren_spec A hfocus6 hl6 hnd hzero hnext hapart6
  refine ⟨h7, a, k, ?_, hshape, hfocus7, hupdates.trans hupdates7⟩
  have hnext0 : rest.first (t.nextAt C) = 0 → t.nextAt C = 0 := by
    intro h0
    cases rest with
    | nil => exact h0
    | cons b z k r => exact absurd h0 (hfocus1.ne_zero (.inr (by simp)))
  rw [linkLeft] at hleft
  rw [linkRight] at hright
  simp only [hread]
  by_cases hprev : t.prevAt C = 0
  · have hpar : parentAt C ≠ 0 := parentAt_ne_zero h0.nodup_ring (.inl hprev)
    rw [if_pos hprev] at hleft
    simp only [if_pos hprev, if_pos hpar, hleft, hmodify3]
    by_cases hlast : rest.first (t.nextAt C) = 0
    · rw [if_pos hlast] at hright
      simp only [if_pos hlast, hright, hmodify5, hdealloc, NodeHeap.read_eq hq0 hl6.1, first_nil,
        hcopy]
    · rw [if_neg hlast] at hright
      simp only [if_neg hlast, hright, hmodify5, hdealloc, NodeHeap.read_eq hq0 hl6.1, first_nil,
        hcopy]
  · rw [if_neg hprev] at hleft
    simp only [if_neg hprev, hleft, hmodify3]
    by_cases hlast : rest.first (t.nextAt C) = 0
    · have hpar : parentAt C ≠ 0 := parentAt_ne_zero h0.nodup_ring (.inr (hnext0 hlast))
      rw [if_pos hlast] at hright
      simp only [if_pos hlast, if_pos hpar, hright, hmodify5, hdealloc, NodeHeap.read_eq hq0 hl6.1,
        first_nil, hcopy]
    · rw [if_neg hlast] at hright
      simp only [if_neg hlast, hright, hmodify5, hdealloc, NodeHeap.read_eq hq0 hl6.1, first_nil,
        hcopy]

/-! ## copy_ -/

theorem Updates.others {other : Tree} (hu : Updates h h' t f f') (ho : Represents h.cells other g)
    (hapart : ∀ b ∈ other.footprint g, b ∉ t.footprint f) :
    Represents h'.cells other g ∧ ∀ b ∈ other.footprint g, b ∉ t.footprint f' := by
  have hkeep : ∀ b ∈ other.footprint g, b ∉ t.footprint f' ∧ h'.cells b = h.cells b :=
    fun b hb => hu.apart (ho.isSome b hb) (hapart b hb)
  exact ⟨ho.congr fun b hb => (hkeep b hb).2, fun b hb => (hkeep b hb).1⟩

theorem Represents.feet_notMem (h0 : Represents h.cells t f) : t.feet ∉ f.ids := by
  have hnd := h0.nodup
  simp only [footprint, List.nodup_cons] at hnd
  exact hnd.2.2.1

theorem Represents.first_ne_zero (h0 : Represents h.cells t f) : f.first t.feet ≠ 0 := by
  cases f with
  | nil => exact h0.ne_zero (by simp [footprint])
  | cons a x kids rest => exact h0.ne_zero (by simp [footprint])

/-- The top nodes of a tree, one after the other. -/
theorem Represents.atTop (h0 : Represents h.cells t (f.append (.cons p y kids rest))) :
    Focus h.cells t (along f []) (.cons p y kids rest) :=
  represents_plug.mp (by rw [plug_along]; exact h0)

@[simp] theorem after_along : after (along f C) = after C := by
  induction f generalizing C with
  | nil => rfl
  | cons a x kids rest _ ih => exact ih

theorem Represents.incr_top (h0 : Represents h.cells t (f.append (.cons p y kids rest))) :
    PreOrderIterator.incr h { node := p, skipCurrentChildren := true } =
      .ok { node := rest.first t.feet } := by
  rw [incr_skip_spec h0.atTop, after_along, after, List.append_nil, first_eq_headD]

theorem append_cons_eq : f.append (.cons p y kids rest) =
    (f.append (.cons p y kids .nil)).append rest := by
  rw [append_assoc, cons_append, nil_append]

/-- A new node for each top node of `other`, the last one first. -/
theorem copyHeads_spec {other : Tree} (ho : Represents h.cells other (f.append g))
    (h0 : Represents h.cells t f') (hapart : ∀ b ∈ other.footprint (f.append g), b ∉ t.footprint f')
    (hn : g.roots.length < n) :
    ∃ h' g', t.copyHeads A other n h { node := g.first other.feet } (f'.first t.feet) = .ok h' ∧
      g'.roots.length = f'.roots.length + g.roots.length ∧ Updates h h' t f' g' := by
  induction g generalizing h f f' n with
  | nil =>
    obtain ⟨n, rfl⟩ := Nat.exists_eq_succ_of_ne_zero (Nat.ne_of_gt hn)
    exact ⟨h, f', by rw [copyHeads, first_nil, if_pos rfl], rfl, .refl h0⟩
  | cons q x kids rest _ ih =>
    rw [roots_cons, List.length_cons] at hn
    obtain ⟨n, rfl⟩ := Nat.exists_eq_succ_of_ne_zero (by omega : n ≠ 0)
    have hfeet : q ≠ other.feet := fun he => ho.feet_notMem (he ▸ by simp)
    have hq0 : q ≠ 0 := ho.ne_zero (by simp [footprint])
    have hfirst := h0.first_ne_zero
    obtain ⟨h1, a, hrun, hfocus, hupdates⟩ :=
      insert_spec (C := []) A (represents_plug.mp h0) hfirst x
    obtain ⟨ho1, hapart1⟩ := hupdates.others ho hapart
    have hincr := ho1.incr_top
    rw [append_cons_eq] at ho1 hapart1
    obtain ⟨h2, g', hloop, hlen, hupdates'⟩ :=
      ih ho1 (represents_plug.mpr hfocus) hapart1 (Nat.lt_of_succ_lt_succ hn)
    refine ⟨h2, g', ?_, ?_, hupdates.trans hupdates'⟩
    · simp only [plug_nil, first_cons] at hloop
      simp only [nextAt_nil] at hrun
      simp only [copyHeads, first_cons, if_neg hfeet, NodeHeap.read_eq hq0 ho.atTop.hole.1, hrun,
        PreOrderIterator.skipChildren, hincr, hloop, bind, Except.bind]
    · rw [hlen, plug_nil, roots_cons, roots_cons, List.length_cons, List.length_cons]
      omega

/-- Each of the new nodes gives way to a copy of a tree of `other`. -/
theorem copyTrees_spec {other : Tree} (ho : Represents h.cells other (f.append g))
    (h0 : Represents h.cells t (f'.append k))
    (hapart : ∀ b ∈ other.footprint (f.append g), b ∉ t.footprint (f'.append k))
    (hlen : k.roots.length = g.roots.length) (hn : g.roots.length < n) :
    ∃ h', ∃ g' : Forest Ptr α, t.copyTrees A other n h { node := g.first other.feet }
        { node := k.first t.feet } = .ok h' ∧
      g'.shape = g.shape ∧ Updates h h' t (f'.append k) (f'.append g') := by
  induction g generalizing h f f' k n with
  | nil =>
    obtain ⟨n, rfl⟩ := Nat.exists_eq_succ_of_ne_zero (Nat.ne_of_gt hn)
    cases k with
    | nil => exact ⟨h, .nil, by rw [copyTrees, first_nil, if_pos rfl], rfl, .refl h0⟩
    | cons => cases hlen
  | cons q x kids rest _ ih =>
    cases k with
    | nil => cases hlen
    | cons p y kids' rest' =>
      rw [roots_cons, List.length_cons] at hn
      rw [roots_cons, roots_cons, List.length_cons, List.length_cons] at hlen
      obtain ⟨n, rfl⟩ := Nat.exists_eq_succ_of_ne_zero (by omega : n ≠ 0)
      have hfeet : q ≠ other.feet := fun he => ho.feet_notMem (he ▸ by simp)
      have hfocus : Focus h.cells t (along f' []) (.cons p y kids' rest') := h0.atTop
      obtain ⟨hl, hnd, hzero, hnext⟩ := ho.atTop.subtree
      obtain ⟨h1, a, k, hrun, hshape, hfocus1, hupdates⟩ :=
        replace_spec A hfocus hl hnd hzero hnext fun b hb => by
          rw [plug_along, plug_nil]
          refine hapart b ?_
          simp only [footprint, ids_append, ids_cons, ids_nil, List.append_nil, List.mem_cons,
            List.mem_append] at hb ⊢
          tauto
      rw [plug_along, plug_nil, plug_along, plug_nil] at hupdates
      obtain ⟨ho1, hapart1⟩ := hupdates.others ho hapart
      have hincr := ho1.incr_top
      have hincr' := hupdates.represents.incr_top
      have h1r := hupdates.represents
      rw [append_cons_eq] at ho1 hapart1 h1r
      rw [append_cons_eq (f := f') (p := a)] at hapart1
      obtain ⟨h2, g', hloop, hshape', hupdates'⟩ :=
        ih ho1 h1r hapart1 (Nat.succ.inj hlen) (Nat.lt_of_succ_lt_succ hn)
      refine ⟨h2, .cons a x k g', ?_, ?_, hupdates.trans ?_⟩
      · simp only [copyTrees, first_cons, if_neg hfeet, hrun, PreOrderIterator.skipChildren, hincr,
          hincr', hloop, bind, Except.bind]
      · rw [shape_cons, shape_cons, hshape, hshape']
      · have happend : f'.append (.cons a x k g') = (f'.append (.cons a x k .nil)).append g' :=
          append_cons_eq
        rw [append_cons_eq, happend]
        exact hupdates'

theorem length_roots_le : f.roots.length ≤ f.ids.length := by
  induction f with
  | nil => exact Nat.le_refl _
  | cons a x kids rest _ ih =>
    simp only [roots_cons, ids_cons, List.length_cons, List.length_append]
    omega

/-- `copy_` makes a forest of the shape of the other tree's, out of nodes of its own. -/
theorem copy_spec {other : Tree} (h0 : Represents h.cells t f) (ho : Represents h.cells other g)
    (hapart : ∀ b ∈ other.footprint g, b ∉ t.footprint f) :
    ∃ h', ∃ g' : Forest Ptr α, t.copy A h other = .ok h' ∧ g'.shape = g.shape ∧
      Updates h h' t f g' := by
  obtain ⟨h1, hh1, hupdates1⟩ := clear_spec h0
  obtain ⟨ho1, hapart1⟩ := hupdates1.others ho hapart
  have hroots : ∀ {h : NodeHeap α}, Represents h.cells other g → g.roots.length < h.fuel := by
    intro h ho
    have hle := ho.length_le
    have hroots := length_roots_le (f := g)
    unfold NodeHeap.fuel
    omega
  obtain ⟨h2, k, hheads, hlen, hupdates2⟩ :=
    copyHeads_spec (f := .nil) A ho1 hupdates1.represents hapart1 (hroots ho1)
  obtain ⟨ho2, hapart2⟩ := hupdates2.others ho1 hapart1
  have h2r : Represents h2.cells t (Forest.nil.append k) := hupdates2.represents
  obtain ⟨h3, g', htrees, hshape, hupdates3⟩ :=
    copyTrees_spec (f := .nil) A ho2 h2r hapart2 (by simpa using hlen) (hroots ho2)
  refine ⟨h3, g', ?_, hshape, (hupdates1.trans hupdates2).trans hupdates3⟩
  simp only [copy, hh1, begin_spec ho1, begin_spec hupdates1.represents, begin_spec ho2,
    begin_spec hupdates2.represents, ← first_eq_headD, hheads, htrees, bind, Except.bind]

/-- `operator=` on two trees. -/
theorem assign_spec {other : Tree} (h0 : Represents h.cells t f) (ho : Represents h.cells other g)
    (hapart : ∀ b ∈ other.footprint g, b ∉ t.footprint f) :
    ∃ h', ∃ g' : Forest Ptr α, t.assign A h other = .ok h' ∧ g'.shape = g.shape ∧
      Updates h h' t f g' := by
  have hne : t ≠ other := by
    rintro rfl
    exact hapart t.head (by simp [footprint]) (by simp [footprint])
  rw [assign, if_pos hne]
  exact copy_spec A h0 ho hapart

end Copy

end Tree
end DepTaint
