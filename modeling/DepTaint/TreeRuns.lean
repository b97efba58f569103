import DepTaint.TreeCommands
import Mathlib.Data.Finset.Lattice.Fold
import Mathlib.Order.Lattice.Nat

/-!
# TreeRuns

What holds after any run of the operations of `tree.hh` on any number of trees.

`TreeWorld.Models` ties the memory to the forests: it holds the forest of every tree, no node is of
two trees, and every node is of some tree. `TreeWorld.exec_spec` says that an operation succeeds where
its caller may run it, and keeps the tie; the results about runs rest on it.
-/

namespace DepTaint

open Forest DepTaint.Tree

variable {α : Type}

structure TreeWorld.Models (w : TreeWorld α) (σ : Forests α) : Prop where
  mem_trees : ∀ t, t ∈ w.trees ↔ (σ t).isSome = true
  nodup_trees : w.trees.Nodup
  represents : ∀ {t f}, σ t = some f → Represents w.memory.cells t f
  apart : ∀ {t u f g}, σ t = some f → σ u = some g → t ≠ u → ∀ b ∈ t.footprint f, b ∉ u.footprint g
  accounted : ∀ b, (w.memory.cells b).isSome = true → ∃ t f, σ t = some f ∧ b ∈ t.footprint f

namespace TreeWorld

variable {w w' : TreeWorld α} {σ σ' : Forests α} {h h' : NodeHeap α} {t u other : Tree}
  {f f' g : Forest Ptr α} {C : Context Ptr α} {kids rest : Forest Ptr α} {p r : Ptr} {x y : α}
  {c : TreeCommand α}

theorem Models.wellFormed (hM : w.Models σ) : σ.WellFormed :=
  ⟨fun ht => (hM.represents ht).nodup, hM.apart⟩

theorem Models.exists_forest (hM : w.Models σ) (ht : t ∈ w.trees) : ∃ f, σ t = some f :=
  Option.isSome_iff_exists.mp ((hM.mem_trees t).mp ht)

theorem nodes_spec (h0 : Represents h.cells t f) : t.nodes h = .ok f.ids := by
  simp only [Tree.nodes, begin_spec h0, walk_spec h0, bind, Except.bind]

theorem Models.holds_iff (hM : w.Models σ) (ht : σ t = some f) : w.Holds t p ↔ p ∈ f.ids := by
  have hnodes := nodes_spec (hM.represents ht)
  constructor
  · rintro ⟨_, l, hl, hp⟩
    rw [hnodes] at hl
    cases hl
    exact hp
  · exact fun hp => ⟨(hM.mem_trees t).mpr (by rw [ht]; rfl), f.ids, hnodes, hp⟩

theorem Models.eq_nil (hM : w.Models σ) (ht : σ t = some f)
    (hempty : t.nodes w.memory = .ok []) : f = .nil := by
  have hnodes := nodes_spec (hM.represents ht)
  rw [hempty] at hnodes
  cases f with
  | nil => rfl
  | cons a x kids rest => cases hnodes

/-- An iterator to a node is a position in the forest. -/
theorem Models.position (hM : w.Models σ) (hp : w.Holds t p) :
    ∃ C y kids rest, σ t = some (plug C (.cons p y kids rest)) ∧
      Focus w.memory.cells t C (.cons p y kids rest) := by
  obtain ⟨f, ht⟩ := hM.exists_forest hp.1
  obtain ⟨C, y, kids, rest, rfl⟩ := exists_plug ((hM.holds_iff ht).mp hp)
  exact ⟨C, y, kids, rest, ht, represents_plug.mp (hM.represents ht)⟩

/-! ## One operation -/

theorem models_empty : (empty α).Models fun _ => none where
  mem_trees t := by simp [empty]
  nodup_trees := List.nodup_nil
  represents ht := by cases ht
  apart ht := by cases ht
  accounted b hb := by simp [empty, NodeHeap.empty] at hb

/-- An operation on one tree. -/
theorem Models.update (hM : w.Models σ) (ht : σ t = some f) (hu : Updates w.memory h' t f f') :
    (TreeWorld.mk h' w.trees).Models (σ.set t f') := by
  have hothers : ∀ {u g}, σ u = some g → u ≠ t →
      Represents h'.cells u g ∧ ∀ b ∈ u.footprint g, b ∉ t.footprint f' :=
    fun hg hne => hu.others (hM.represents hg) (hM.apart hg ht hne)
  refine ⟨fun u => ?_, hM.nodup_trees, fun {u g} hg => ?_, fun {u v g k} hg hk hne b hb => ?_,
    fun b hb => ?_⟩
  · rw [hM.mem_trees]
    by_cases hut : u = t
    · subst hut
      rw [ht, Forests.set_self]
      simp
    · rw [Forests.set_of_ne hut]
  · by_cases hut : u = t
    · subst hut
      rw [Forests.set_self] at hg
      cases hg
      exact hu.represents
    · rw [Forests.set_of_ne hut] at hg
      exact (hothers hg hut).1
  · by_cases hut : u = t
    · subst hut
      rw [Forests.set_self] at hg
      rw [Forests.set_of_ne (Ne.symm hne)] at hk
      cases hg
      exact fun hx => (hothers hk (Ne.symm hne)).2 b hx hb
    · rw [Forests.set_of_ne hut] at hg
      by_cases hvt : v = t
      · subst hvt
        rw [Forests.set_self] at hk
        cases hk
        exact (hothers hg hut).2 b hb
      · rw [Forests.set_of_ne hvt] at hk
        exact hM.apart hg hk hne b hb
  · by_cases hbt : b ∈ t.footprint f'
    · exact ⟨t, f', Forests.set_self, hbt⟩
    · have hbf' : b ∉ f'.ids := fun hx => hbt (by simp [footprint, hx])
      have hbf : b ∉ t.footprint f := by
        intro hx
        have hids : b ∈ f.ids := by
          simp only [footprint, List.mem_cons, not_or] at hx hbt
          tauto
        rw [hu.freed b hids hbf'] at hb
        cases hb
      rw [hu.frame b hbf hbf'] at hb
      obtain ⟨u, g, hg, hbg⟩ := hM.accounted b hb
      have hut : u ≠ t := by
        rintro rfl
        rw [ht] at hg
        cases hg
        exact hbf hbg
      exact ⟨u, g, by rw [Forests.set_of_ne hut, hg], hbg⟩

/-- A tree of its own, out of two free addresses. -/
theorem Models.construct (hM : w.Models σ) (h0 : Represents h'.cells t (.nil : Forest Ptr α))
    (hhead : w.memory.cells t.head = none) (hfeet : w.memory.cells t.feet = none)
    (hframe : ∀ b, b ≠ t.head → b ≠ t.feet → h'.cells b = w.memory.cells b) :
    σ t = none ∧ (TreeWorld.mk h' (t :: w.trees)).Models (σ.set t .nil) := by
  have hfoot : ∀ {u g b}, σ u = some g → b ∈ u.footprint g → b ≠ t.head ∧ b ≠ t.feet := by
    intro u g b hg hb
    have hsome := (hM.represents hg).isSome b hb
    constructor
    · rintro rfl
      rw [hhead] at hsome
      cases hsome
    · rintro rfl
      rw [hfeet] at hsome
      cases hsome
  have hnew : σ t = none := by
    cases ht : σ t with
    | none => rfl
    | some g => exact absurd rfl (hfoot ht (by simp [footprint] : t.head ∈ t.footprint g)).1
  have hmem : t ∉ w.trees := by
    rw [hM.mem_trees, hnew]
    simp
  have hne : ∀ {u g}, σ u = some g → u ≠ t := by
    rintro u g hg rfl
    rw [hnew] at hg
    cases hg
  have hbare : ∀ b, b ∈ t.footprint (.nil : Forest Ptr α) ↔ b = t.head ∨ b = t.feet := by
    intro b
    simp [footprint]
  refine ⟨hnew, fun u => ?_, List.nodup_cons.mpr ⟨hmem, hM.nodup_trees⟩, fun {u g} hg => ?_,
    fun {u v g k} hg hk huv b hb => ?_, fun b hb => ?_⟩
  · rw [List.mem_cons, hM.mem_trees]
    by_cases hut : u = t
    · subst hut
      rw [Forests.set_self]
      simp
    · rw [Forests.set_of_ne hut]
      simp [hut]
  · by_cases hut : u = t
    · subst hut
      rw [Forests.set_self] at hg
      cases hg
      exact h0
    · rw [Forests.set_of_ne hut] at hg
      refine (hM.represents hg).congr fun b hb => hframe b (hfoot hg hb).1 (hfoot hg hb).2
  · by_cases hut : u = t
    · subst hut
      rw [Forests.set_self] at hg
      rw [Forests.set_of_ne (Ne.symm huv)] at hk
      cases hg
      rw [hbare] at hb
      exact fun hx => hb.elim (hfoot hk hx).1 (hfoot hk hx).2
    · rw [Forests.set_of_ne hut] at hg
      by_cases hvt : v = t
      · subst hvt
        rw [Forests.set_self] at hk
        cases hk
        rw [hbare]
        exact fun hx => hx.elim (hfoot hg hb).1 (hfoot hg hb).2
      · rw [Forests.set_of_ne hvt] at hk
        exact hM.apart hg hk huv b hb
  · by_cases hbt : b = t.head ∨ b = t.feet
    · exact ⟨t, .nil, Forests.set_self, (hbare b).mpr hbt⟩
    · rw [not_or] at hbt
      rw [hframe b hbt.1 hbt.2] at hb
      obtain ⟨u, g, hg, hbg⟩ := hM.accounted b hb
      exact ⟨u, g, by rw [Forests.set_of_ne (hne hg), hg], hbg⟩

/-- A tree whose addresses are given back. -/
theorem Models.destroy (hM : w.Models σ) (ht : σ t = some f)
    (hfreed : ∀ b ∈ t.footprint f, h'.cells b = none)
    (hframe : ∀ b ∉ t.footprint f, h'.cells b = w.memory.cells b) :
    (TreeWorld.mk h' (w.trees.erase t)).Models (Function.update σ t none) := by
  have hold : ∀ {u g}, Function.update σ t none u = some g → u ≠ t ∧ σ u = some g := by
    intro u g hg
    by_cases hut : u = t
    · subst hut
      rw [Function.update_self] at hg
      cases hg
    · rw [Function.update_of_ne hut] at hg
      exact ⟨hut, hg⟩
  refine ⟨fun u => ?_, hM.nodup_trees.erase t, fun {u g} hg => ?_,
    fun {u v g k} hg hk => hM.apart (hold hg).2 (hold hk).2, fun b hb => ?_⟩
  · rw [hM.nodup_trees.mem_erase_iff, hM.mem_trees]
    by_cases hut : u = t
    · subst hut
      simp
    · rw [Function.update_of_ne hut]
      simp [hut]
  · obtain ⟨hne, hg⟩ := hold hg
    refine (hM.represents hg).congr fun b hb => hframe b fun hx => ?_
    exact hM.apart ht hg (Ne.symm hne) b hx hb
  · have hbt : b ∉ t.footprint f := by
      intro hx
      rw [hfreed b hx] at hb
      cases hb
    rw [hframe b hbt] at hb
    obtain ⟨u, g, hg, hbg⟩ := hM.accounted b hb
    have hut : u ≠ t := by
      rintro rfl
      rw [ht] at hg
      cases hg
      exact hbt hbg
    exact ⟨u, g, by rw [Function.update_of_ne hut, hg], hbg⟩

/-- An operation that changes one tree, and returns `r`. -/
theorem Models.keep (hM : w.Models σ) (ht : σ t = some f) (hu : Updates w.memory h' t f f')
    {run : Except TreeFault (NodeHeap α × Ptr)} (hrun : run = .ok (h', r))
    (hdoes : c.Does σ r (σ.set t f')) :
    ∃ w' r σ', w.keep run = .ok (w', r) ∧ c.Does σ r σ' ∧ w'.Models σ' := by
  refine ⟨⟨h', w.trees⟩, r, σ.set t f', ?_, hdoes, hM.update ht hu⟩
  simp only [TreeWorld.keep, hrun, bind, Except.bind]

theorem Models.focus (hM : w.Models σ) (ht : σ t = some f) : Focus w.memory.cells t [] f :=
  represents_plug.mp (hM.represents ht)

section Step

variable [Inhabited α] (A : Allocator)

/-- Where the caller may run an operation, it succeeds, does what it is for, and keeps the tie. -/
theorem exec_spec (hM : w.Models σ) (henabled : w.Enabled c) :
    ∃ w' r σ', w.exec A c = .ok (w', r) ∧ c.Does σ r σ' ∧ w'.Models σ' := by
  cases c with
  | construct =>
    obtain ⟨h', t, hrun, h0, hhead, hfeet, hframe⟩ := headInitialise_spec A w.memory
    obtain ⟨hnew, hM'⟩ := hM.construct h0 hhead hfeet hframe
    exact ⟨_, 0, _, by simp only [exec, hrun, bind, Except.bind], .construct hnew, hM'⟩
  | copyConstruct other =>
    obtain ⟨f, hother⟩ := hM.exists_forest henabled
    obtain ⟨h1, t, hrun, h0, hhead, hfeet, hframe⟩ := headInitialise_spec A w.memory
    obtain ⟨hnew, hM1⟩ := hM.construct h0 hhead hfeet hframe
    have hne : other ≠ t := by
      rintro rfl
      rw [hnew] at hother
      cases hother
    have ht1 : σ.set t .nil t = some .nil := Forests.set_self
    have hother1 : σ.set t .nil other = some f := by rw [Forests.set_of_ne hne, hother]
    obtain ⟨h2, f', hcopy, hshape, hupdates⟩ :=
      copy_spec A h0 (hM1.represents hother1) (hM1.apart hother1 ht1 hne)
    have hM2 := hM1.update ht1 hupdates
    rw [Forests.set, Forests.set, Function.update_idem] at hM2
    exact ⟨_, 0, _, by simp only [exec, copyConstruct, hrun, hcopy, bind, Except.bind],
      .copyConstruct hnew hother hshape, hM2⟩
  | assign t other =>
    obtain ⟨f, ht⟩ := hM.exists_forest henabled.1
    obtain ⟨g, hother⟩ := hM.exists_forest henabled.2
    by_cases hne : t = other
    · subst hne
      refine ⟨w, 0, σ, ?_, .assignSelf, hM⟩
      simp only [exec, TreeWorld.keep, Tree.assign, ne_eq, not_true_eq_false, if_false, bind,
        Except.bind]
    · obtain ⟨h', f', hrun, hshape, hupdates⟩ := assign_spec A (hM.represents ht)
        (hM.represents hother) (hM.apart hother ht (Ne.symm hne))
      exact hM.keep ht hupdates (by simp only [hrun, bind, Except.bind]) (.assign hne hother hshape)
  | destroy t =>
    obtain ⟨f, ht⟩ := hM.exists_forest henabled
    obtain ⟨h', hrun, hfreed, hframe⟩ := destroy_spec (hM.represents ht)
    exact ⟨_, 0, _, by simp only [exec, hrun, bind, Except.bind], .destroy,
      hM.destroy ht hfreed hframe⟩
  | clear t =>
    obtain ⟨f, ht⟩ := hM.exists_forest henabled
    obtain ⟨h', hrun, hupdates⟩ := clear_spec (hM.represents ht)
    exact hM.keep ht hupdates (by simp only [hrun, bind, Except.bind]) .clear
  | setHead t x =>
    obtain ⟨f, ht⟩ := hM.exists_forest henabled.1
    obtain rfl : f = .nil := hM.eq_nil ht henabled.2
    obtain ⟨h', a, hrun, _, hupdates⟩ := setHead_spec A (hM.represents ht) x
    exact hM.keep ht hupdates hrun (.setHead ht)
  | insert t p x =>
    rcases henabled with hp | ⟨hmem, hend⟩
    · obtain ⟨C, y, kids, rest, ht, hfocus⟩ := hM.position hp
      have hp0 : (Forest.cons p y kids rest).first (t.nextAt C) ≠ 0 := hfocus.ne_zero (.inr (by simp))
      obtain ⟨h', a, hrun, _, hupdates⟩ := insert_spec A hfocus hp0 x
      exact hM.keep ht hupdates hrun (.insert ht)
    · obtain ⟨f, ht⟩ := hM.exists_forest hmem
      have hfocus : Focus w.memory.cells t (along f []) .nil :=
        (hM.focus ht).reframe (by rw [plug_along, append_nil])
      have hfeet : t.feet ≠ 0 := hfocus.feet_ne_zero
      obtain ⟨h', a, hrun, _, hupdates⟩ := insert_spec A hfocus (by
        rw [first_nil, nextAt_along]
        exact hfeet) x
      rw [plug_along, append_nil, plug_nil, plug_along, plug_nil] at hupdates
      rw [first_nil, nextAt_along, nextAt_nil] at hrun
      refine hM.keep ht hupdates ?_ (.insertEnd ht hend)
      rcases hend with rfl | rfl
      · exact hrun
      · rw [← hrun]
        simp only [Tree.insert, if_true, if_neg hfeet]
  | insertSibling t p q x =>
    rcases henabled with hp | ⟨rfl, hq⟩
    · obtain ⟨C, y, kids, rest, ht, hfocus⟩ := hM.position hp
      obtain ⟨h', a, hrun, _, hupdates⟩ := insertSibling_spec A hfocus q x
      exact hM.keep ht hupdates hrun (.insertSibling ht)
    · obtain ⟨C, y, kids, rest, ht, hfocus⟩ := hM.position hq
      obtain ⟨h', a, hrun, _, hupdates⟩ := insertSibling_end_spec A hfocus x
      exact hM.keep ht hupdates hrun (.insertSiblingEnd ht)
  | insertAfter t p x =>
    obtain ⟨C, y, kids, rest, ht, hfocus⟩ := hM.position henabled
    obtain ⟨h', a, hrun, _, hupdates⟩ := insertAfter_spec A hfocus x
    exact hM.keep ht hupdates hrun (.insertAfter ht)
  | appendChild t p x =>
    obtain ⟨C, y, kids, rest, ht, hfocus⟩ := hM.position henabled
    obtain ⟨h', a, hrun, _, hupdates⟩ := appendChild_spec A hfocus x
    exact hM.keep ht hupdates hrun (.appendChild ht)
  | prependChild t p x =>
    obtain ⟨C, y, kids, rest, ht, hfocus⟩ := hM.position henabled
    obtain ⟨h', a, hrun, _, hupdates⟩ := prependChild_spec A hfocus x
    exact hM.keep ht hupdates hrun (.prependChild ht)
  | eraseChildren t p =>
    obtain ⟨C, y, kids, rest, ht, hfocus⟩ := hM.position henabled
    obtain ⟨h', hrun, _, hupdates⟩ := eraseChildren_spec hfocus
    exact hM.keep ht hupdates (by simp only [hrun, bind, Except.bind]) (.eraseChildren ht)
  | erase t p =>
    obtain ⟨C, y, kids, rest, ht, hfocus⟩ := hM.position henabled
    obtain ⟨h', hrun, _, hupdates⟩ := erase_spec hfocus
    exact hM.keep ht hupdates (by simp only [hrun, bind, Except.bind]) (.erase ht)
  | replace t p other q =>
    obtain ⟨hne, hp, hq⟩ := henabled
    obtain ⟨C, y, kids, rest, ht, hfocus⟩ := hM.position hp
    obtain ⟨D, z, kids', rest', hother, hsource⟩ := hM.position hq
    obtain ⟨hl, hnd, hzero, hnext⟩ := hsource.subtree
    obtain ⟨h', a, k, hrun, hshape, _, hupdates⟩ :=
      replace_spec A hfocus hl hnd hzero hnext fun b hb => by
        refine hM.apart hother ht (Ne.symm hne) b (mem_footprint_plug.mpr (.inr ?_))
        simp only [ids_cons, ids_nil, List.append_nil, List.mem_cons, List.mem_append] at hb ⊢
        tauto
    exact hM.keep ht hupdates hrun (.replace ht hother hshape)

end Step

/-! ## What a program sees -/

/-- The iterators of a tree go over the forest `f`. -/
structure Iterates (h : NodeHeap α) (t : Tree) (f : Forest Ptr α) : Prop where
  preOrder : t.nodes h = .ok f.ids
  backwards : walkBack h (f.ids.headD t.feet) h.fuel { node := t.feet } = .ok f.ids.reverse
  postOrder : ∃ it, t.beginPost h = .ok it ∧ walkPost h t.feet h.fuel it = .ok f.postorder
  outline : t.outline h = .ok (f.outline 0)
  size : t.size h = .ok f.ids.length

theorem outline_spec_at (h0 : Focus h.cells t C g) :
    (g.ids.mapM fun p => do
      let d ← depthFrom h h.fuel p
      let n ← h.read p
      .ok (d, n.data)) = .ok (g.outline (ancestorsOf C).length) := by
  induction g generalizing C with
  | nil => rfl
  | cons p y kids rest ihk ihr =>
    have hkids := ihk (h0.reframe (D := .below p y rest :: C) rfl)
    have hrest := ihr (h0.reframe (D := .beside p y kids :: C) rfl)
    have hp0 : p ≠ 0 := h0.ne_zero (.inr (by simp))
    rw [ids_cons, List.mapM_cons, List.mapM_append, hkids, hrest, depthFrom_fuel h0,
      NodeHeap.read_eq hp0 h0.hole.1]
    rfl

theorem iterates (h0 : Represents h.cells t f) : Iterates h t f where
  preOrder := nodes_spec h0
  backwards := walkBack_spec h0
  postOrder := walkPost_spec h0
  outline := by
    have houtline := outline_spec_at (represents_plug.mp h0 : Focus h.cells t [] f)
    simp only [Tree.outline, nodes_spec h0, bind, Except.bind]
    exact houtline
  size := size_spec h0

/-- The queries at the node `p` in front of the hole of `C`, and the steps of an iterator from it. -/
structure Tells (h : NodeHeap α) (t : Tree) (C : Context Ptr α) (p : Ptr) (kids rest : Forest Ptr α) :
    Prop where
  depth : Tree.depth h p =
    if (ancestorsOf C).length < 2 ^ 31 then .ok (ancestorsOf C).length else .error .overflow
  numberOfChildren : Tree.numberOfChildren h p = .ok (.ofNat kids.roots.length)
  iteratorNumberOfChildren : Tree.iteratorNumberOfChildren h p = .ok (.ofNat kids.roots.length)
  child : ∀ num : UInt32, num.toNat ≤ kids.roots.length →
    Tree.child h p num = .ok (kids.roots.getD num.toNat 0)
  sizeAt : Tree.sizeAt h p = .ok (kids.ids.length + 1)
  incr : PreOrderIterator.incr h { node := p } =
    .ok { node := (kids.ids ++ rest.ids ++ after C).headD t.feet }
  skip : PreOrderIterator.incr h (PreOrderIterator.skipChildren { node := p }) =
    .ok { node := (rest.ids ++ after C).headD t.feet }
  decr : PreOrderIterator.decr h { node := p } = .ok { node := (before C).getLastD t.head }

theorem tells (h0 : Focus h.cells t C (.cons p y kids rest)) : Tells h t C p kids rest where
  depth := depth_spec h0
  numberOfChildren := numberOfChildren_spec h0
  iteratorNumberOfChildren := iteratorNumberOfChildren_spec h0
  child _ hn := child_spec h0 hn
  sizeAt := sizeAt_spec h0
  incr := incr_spec h0
  skip := incr_skip_spec h0
  decr := decr_spec h0

/-! ## Runs -/

variable [Inhabited α] {A : Allocator} {l : List (TreeCommand α × Ptr)}

theorem run_from (hM : w.Models σ) (hrun : Run A w l w') :
    ∃ σ', Forests.Run σ l σ' ∧ w'.Models σ' := by
  induction hrun with
  | nil => exact ⟨σ, .nil, hM⟩
  | cons _ henabled hexec ih =>
    obtain ⟨σ₁, hσ, hM₁⟩ := ih
    obtain ⟨w₂, r, σ₂, hexec₂, hdoes, hM₂⟩ := exec_spec A hM₁ henabled
    rw [hexec] at hexec₂
    cases hexec₂
    exact ⟨σ₂, .cons hσ hdoes hM₂.wellFormed, hM₂⟩

theorem run_spec (hrun : Run A (empty α) l w) :
    ∃ σ, Forests.Run (fun _ => none) l σ ∧ w.Models σ :=
  run_from models_empty hrun

/-- The address after the last one in use. -/
def nextAddress : Allocator where
  allocate s := s.sup id + 1
  fresh _ hs := Nat.not_succ_le_self _ (Finset.le_sup (f := id) hs)
  ne_null _ := Nat.succ_ne_zero _

def smallTree : Tree := ⟨1, 2⟩

/-- The memory after a tree has been constructed, assignment by assignment. -/
def newHeap : NodeHeap Nat :=
  let h := (NodeHeap.empty.put 1 { data := 0 }).put 2 { data := 0 }
  (h.put 1 { nextSibling := 2, data := 0 }).put 2 { prevSibling := 1, data := 0 }

/-- And after it has been given a head. -/
def smallHeap : NodeHeap Nat :=
  let h := (newHeap.put 3 { data := 10 }).put 3 { nextSibling := 2, prevSibling := 1, data := 10 }
  (h.put 2 { prevSibling := 3, data := 0 }).put 1 { nextSibling := 3, data := 0 }

theorem run_new : Run nextAddress (empty Nat) [(.construct, 0)] ⟨newHeap, [smallTree]⟩ :=
  .cons .nil trivial rfl

theorem run_small : Run nextAddress (empty Nat) [(.setHead smallTree 10, 3), (.construct, 0)]
    ⟨smallHeap, [smallTree]⟩ :=
  .cons run_new ⟨.head _, rfl⟩ rfl

/-- After any run, a node that is in memory is of one tree, and comes up on the way from its `begin`
to its `end`, or is its `head` or `feet`. -/
theorem memory_accounted (hrun : Run A (empty α) l w) (b : Ptr) :
    b ∈ w.memory.live ↔ ∃! t, t ∈ w.trees ∧ (b = t.head ∨ b = t.feet ∨ w.Holds t b) := by
  obtain ⟨σ, _, hM⟩ := run_spec hrun
  have howns : ∀ {t f}, σ t = some f → (b ∈ t.footprint f ↔
      t ∈ w.trees ∧ (b = t.head ∨ b = t.feet ∨ w.Holds t b)) := by
    intro t f ht
    have hmem : t ∈ w.trees := (hM.mem_trees t).mpr (by rw [ht]; rfl)
    rw [hM.holds_iff ht, footprint, List.mem_cons, List.mem_cons, and_iff_right hmem]
  rw [w.memory.mem_live]
  constructor
  · intro hsome
    obtain ⟨t, f, ht, hb⟩ := hM.accounted b hsome
    refine ⟨t, (howns ht).mp hb, fun u hu => ?_⟩
    obtain ⟨g, hu'⟩ := hM.exists_forest hu.1
    by_contra hne
    exact hM.apart hu' ht hne b ((howns hu').mpr hu) hb
  · rintro ⟨t, ht, _⟩
    obtain ⟨f, ht'⟩ := hM.exists_forest ht.1
    exact (hM.represents ht').isSome b ((howns ht').mpr ht)

theorem memory_accounted_small : 3 ∈ smallHeap.live ↔ ∃! t, t ∈ [smallTree] ∧
    (3 = t.head ∨ 3 = t.feet ∨ Holds ⟨smallHeap, [smallTree]⟩ t 3) :=
  memory_accounted run_small 3

/-- After any run, the iterators of every tree go over the forest that the operations of the run
make. -/
theorem runs_refine (hrun : Run A (empty α) l w) :
    ∃ σ, Forests.Run (fun _ => none) l σ ∧ (∀ t, t ∈ w.trees ↔ (σ t).isSome = true) ∧
      ∀ t f, σ t = some f → Iterates w.memory t f := by
  obtain ⟨σ, hσ, hM⟩ := run_spec hrun
  exact ⟨σ, hσ, hM.mem_trees, fun t f ht => iterates (hM.represents ht)⟩

theorem runs_refine_small : ∃ σ : Forests Nat,
    Forests.Run (fun _ => none) [(.setHead smallTree 10, 3), (.construct, 0)] σ ∧
      (∀ t, t ∈ [smallTree] ↔ (σ t).isSome = true) ∧
      ∀ t f, σ t = some f → Iterates smallHeap t f :=
  runs_refine run_small

/-- After any run, the queries at every node of every tree tell of the forest. -/
theorem queries_refine (hrun : Run A (empty α) l w) :
    ∃ σ, Forests.Run (fun _ => none) l σ ∧ ∀ {t C p y kids rest},
      σ t = some (plug C (.cons p y kids rest)) → Tells w.memory t C p kids rest := by
  obtain ⟨σ, hσ, hM⟩ := run_spec hrun
  exact ⟨σ, hσ, fun ht => tells (represents_plug.mp (hM.represents ht))⟩

theorem queries_refine_small : ∃ σ : Forests Nat,
    Forests.Run (fun _ => none) [(.setHead smallTree 10, 3), (.construct, 0)] σ ∧
      ∀ {t C p y kids rest}, σ t = some (plug C (.cons p y kids rest)) →
        Tells smallHeap t C p kids rest :=
  queries_refine run_small

/-- A copy has the outline that the other tree had, and keeps it whatever a program does to the other
tree, and to all the rest, as long as it does not change the copy itself. -/
theorem copy_independent (hrun : Run A (empty α) l w) (henabled : w.Enabled c)
    (hexec : w.exec A c = .ok (w', r))
    (hcopy : c = .assign t other ∧ t ≠ other ∨
      c = .copyConstruct other ∧ w'.trees = t :: w.trees)
    {l' : List (TreeCommand α × Ptr)} {w'' : TreeWorld α} (hrun' : Run A w' l' w'')
    (hl' : ∀ e ∈ l', ¬ e.1.Changes t) :
    ∃ o, other.outline w.memory = .ok o ∧ t.outline w''.memory = .ok o := by
  obtain ⟨σ, _, hM⟩ := run_spec hrun
  obtain ⟨w₁, r₁, σ', hexec₁, hdoes, hM'⟩ := exec_spec A hM henabled
  rw [hexec] at hexec₁
  cases hexec₁
  -- the copy of the forest of `other`
  have hshape : ∃ f f' : Forest Ptr α, σ other = some f ∧ σ' t = some f' ∧ f'.shape = f.shape := by
    rcases hcopy with ⟨rfl, hne⟩ | ⟨rfl, htrees⟩
    · cases hdoes with
      | assign _ source copy => exact ⟨_, _, source, Forests.set_self, copy⟩
      | assignSelf => exact absurd rfl hne
    · cases hdoes with
      | @copyConstruct u _ f f' new source copy =>
        have hmem : u ∈ w'.trees := (hM'.mem_trees u).mpr (by rw [Forests.set_self]; rfl)
        rw [htrees, List.mem_cons, hM.mem_trees, new] at hmem
        obtain rfl : u = t := by simpa using hmem
        exact ⟨f, f', source, Forests.set_self, copy⟩
  obtain ⟨f, f', hother, ht, hshape⟩ := hshape
  obtain ⟨σ'', hσ, hM''⟩ := run_from hM' hrun'
  have ht'' := hM''.represents (hσ.unchanged hl' ht)
  refine ⟨f.outline 0, (iterates (hM.represents hother)).outline, ?_⟩
  rw [(iterates ht'').outline, outline_eq_of_shape hshape]

/-- The memory after the small tree has been copied. -/
def copiedHeap : NodeHeap Nat :=
  let h := (smallHeap.put 4 { data := 0 }).put 5 { data := 0 }
  let h := (h.put 4 { nextSibling := 5, data := 0 }).put 5 { prevSibling := 4, data := 0 }
  let h := (h.put 6 { data := 10 }).put 6 { nextSibling := 5, prevSibling := 4, data := 10 }
  let h := (h.put 5 { prevSibling := 6, data := 0 }).put 4 { nextSibling := 6, data := 0 }
  let h := (h.put 6 { nextSibling := 5, prevSibling := 4, data := 10 }).put 7 { data := 10 }
  let h := (h.put 4 { nextSibling := 7, data := 0 }).put 7 { prevSibling := 4, data := 10 }
  let h := (h.put 5 { prevSibling := 7, data := 0 }).put 7
    { nextSibling := 5, prevSibling := 4, data := 10 }
  h.remove 6

theorem copy_independent_small : ∃ w, Run nextAddress ⟨copiedHeap, [⟨4, 5⟩, smallTree]⟩
    [(.erase smallTree 3, 2)] w ∧
      ∃ o, smallTree.outline smallHeap = .ok o ∧ (Tree.mk 4 5).outline w.memory = .ok o :=
  have hrun : Run nextAddress ⟨copiedHeap, [⟨4, 5⟩, smallTree]⟩ [(.erase smallTree 3, 2)] _ :=
    .cons .nil ⟨.tail _ (.head _), [3], rfl, .head _⟩ rfl
  have hkeep : ∀ e ∈ [(TreeCommand.erase smallTree 3, 2)], ¬ e.1.Changes (⟨4, 5⟩ : Tree) := by
    intro e he
    rw [List.mem_singleton.mp he]
    exact fun h : smallTree = ⟨4, 5⟩ => absurd h (by decide)
  ⟨_, hrun, copy_independent run_small (c := .copyConstruct smallTree) (t := ⟨4, 5⟩) (.head _) rfl
    (.inr ⟨rfl, rfl⟩) hrun hkeep⟩

end TreeWorld
end DepTaint
