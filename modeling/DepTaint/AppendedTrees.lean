import DepTaint.Base.AppendTree
import DepTaint.TreeRuns

/-!
# AppendedTrees

A program that gives a `tree` a head and appends children makes an `AppendTree`: the addresses of the
nodes stand for the indices, and the iterators and the queries of `tree.hh` go with its traversal, its
depths and its children.

* `Stores`: the forest in memory is the tree, node by node.
* `Stores.preorder`: and so is its traversal.
* `build_spec`: the run of the program.
-/

namespace DepTaint
namespace Tree

open Forest AppendTree

variable {α : Type}

/-- The first node is put in an empty tree, the others are appended to their parents; `its` are the
iterators that were returned. -/
def build (A : Allocator) (t : Tree) : NodeHeap α → List Ptr → List (α × Option Nat) →
    Except TreeFault (NodeHeap α × List Ptr)
  | h, its, [] => .ok (h, its)
  | h, its, (x, none) :: nodes => do
    let (h, it) ← t.setHead A h x
    t.build A h (its ++ [it]) nodes
  | h, its, (x, some p) :: nodes => do
    let (h, it) ← t.appendChild A h (its.getD p 0) x
    t.build A h (its ++ [it]) nodes

/-- The node `a` is that of an index, with its data and its children. -/
def IsNode (T : AppendTree α) (its : List Ptr) (a : Ptr) (x : α) (kids : List Ptr) : Prop :=
  ∃ i < T.size, a = its.getD i 0 ∧ T.get? i = some x ∧ kids = (T.children i).map (its.getD · 0)

structure Stores (T : AppendTree α) (its : List Ptr) (f : Forest Ptr α) : Prop where
  length : its.length = T.size
  roots : f.roots = [its.getD 0 0]
  ids : f.ids.Perm its
  nodup : its.Nodup
  every : f.Every (IsNode T its)

variable {T T' : AppendTree α} {its is : List Ptr} {f g kids rest : Forest Ptr α}
  {C : Context Ptr α} {a b p : Ptr} {i j k n d : Nat} {x y : α} {h h' : NodeHeap α} {t : Tree}

theorem Stores.inj (hS : Stores T its f) (hi : i < T.size) (hj : j < T.size)
    (heq : its.getD i 0 = its.getD j 0) : i = j := by
  rw [← hS.length] at hi hj
  rw [List.getD_eq_getElem?_getD, List.getD_eq_getElem?_getD, List.getElem?_eq_getElem hi,
    List.getElem?_eq_getElem hj] at heq
  exact (hS.nodup.getElem_inj_iff).mp heq

theorem children_lt (hk : k ∈ T.children i) : k < T.size :=
  lt_size_of_parent (mem_children.mp hk)

/-- Of the trees of a row, the nodes in pre-order, and their depths and data. -/
theorem Stores.row (hS : Stores T its f) {is : List Nat} (hg : g.Every (IsNode T its))
    (hroots : g.roots = is.map (its.getD · 0)) (hlt : ∀ i ∈ is, i < T.size)
    (hdepth : ∀ i ∈ is, T.depth i = d) (hn : g.ids.length ≤ n) :
    g.ids = (is.flatMap (T.preorderFrom n)).map (its.getD · 0) ∧
      g.outline d = (is.flatMap (T.preorderFrom n)).filterMap
        fun i => (T.get? i).map fun x => (T.depth i, x) := by
  induction g generalizing is d n with
  | nil =>
    cases is with
    | nil => exact ⟨rfl, rfl⟩
    | cons i is => cases hroots
  | cons a x kids rest ihk ihr =>
    cases is with
    | nil => cases hroots
    | cons i is =>
      obtain ⟨⟨j, hj, ha, hx, hkids⟩, hk, hr⟩ := hg
      rw [roots_cons, List.map_cons, List.cons.injEq] at hroots
      have hi : i < T.size := hlt i (List.mem_cons_self ..)
      obtain rfl : j = i := hS.inj hj hi (ha.symm.trans hroots.1)
      simp only [ids_cons, List.length_cons, List.length_append] at hn
      obtain ⟨n, rfl⟩ := Nat.exists_eq_succ_of_ne_zero (by omega : n ≠ 0)
      obtain ⟨hk1, hk2⟩ := ihk (d := d + 1) (n := n) hk hkids (fun c hc => children_lt hc)
        (fun c hc => by
          rw [depth_of_parent (mem_children.mp hc), hdepth j (List.mem_cons_self ..)]) (by omega)
      obtain ⟨hr1, hr2⟩ := ihr (d := d) (n := n + 1) hr hroots.2
        (fun c hc => hlt c (List.mem_cons_of_mem _ hc))
        (fun c hc => hdepth c (List.mem_cons_of_mem _ hc)) (by omega)
      rw [List.flatMap_cons, preorderFrom]
      constructor
      · rw [ids_cons, hk1, hr1, ha]
        simp
      · rw [Forest.outline, hk2, hr2]
        simp [hx, hdepth j (List.mem_cons_self ..)]

/-- The traversals agree. -/
theorem Stores.preorder (hS : Stores T its f) (hsize : T.size ≠ 0) :
    f.ids = T.preorder.map (its.getD · 0) ∧
      f.outline 0 = T.preorder.filterMap fun i => (T.get? i).map fun x => (T.depth i, x) := by
  have hlen : f.ids.length ≤ T.size := by rw [hS.ids.length_eq, hS.length]
  have hlt : ∀ i ∈ [0], i < T.size := by
    intro i hi
    rw [List.mem_singleton.mp hi]
    exact Nat.pos_of_ne_zero hsize
  have hdepth : ∀ i ∈ [0], T.depth i = 0 := by
    intro i hi
    rw [List.mem_singleton.mp hi]
    exact Nat.le_zero.mp (depth_le 0)
  have hroots : f.roots = [0].map (its.getD · 0) := hS.roots
  have hrow := hS.row hS.every hroots hlt hdepth hlen
  rw [AppendTree.preorder, if_neg hsize]
  simpa using hrow

/-! ## A child more -/

theorem getD_snoc_of_lt (hi : i < its.length) : (its ++ [a]).getD i 0 = its.getD i 0 := by
  rw [List.getD_eq_getElem?_getD, List.getElem?_append_left hi, List.getD_eq_getElem?_getD]

theorem getD_snoc_length : (its ++ [a]).getD its.length 0 = a := by
  rw [List.getD_eq_getElem?_getD, List.getElem?_append_right (Nat.le_refl _)]
  simp

/-- The other nodes are as they were. -/
theorem IsNode.appended {l : List Ptr} (hlen : its.length = T.size) (hT : Appended T j y T')
    (hb : b ≠ its.getD j 0) (hnode : IsNode T its b x l) : IsNode T' (its ++ [a]) b x l := by
  obtain ⟨i, hi, rfl, hx, rfl⟩ := hnode
  have hij : i ≠ j := fun he => hb (by rw [he])
  have hsize := hT.size
  refine ⟨i, by omega, (getD_snoc_of_lt (by omega)).symm, (hT.grows.get? hi).trans hx, ?_⟩
  rw [hT.children, if_neg hij, List.append_nil]
  refine List.map_congr_left fun c hc => (getD_snoc_of_lt ?_).symm
  have hlt := children_lt hc
  omega

theorem ids_snoc_perm : (plug C (.cons p y (kids.snoc a x) rest)).ids.Perm
    ((plug C (.cons p y kids rest)).ids ++ [a]) := by
  rw [List.perm_iff_count]
  intro b
  simp only [ids_plug, ids_cons, ids_snoc, List.count_append, List.count_cons]
  omega

theorem Stores.append (hS : Stores T its (plug C (.cons p y kids rest))) (hp : p = its.getD j 0)
    (hj : j < T.size) (hT : Appended T j x T') (ha : a ∉ its) :
    Stores T' (its ++ [a]) (plug C (.cons p y (kids.snoc a x) rest)) := by
  have hsize := hT.size
  have hlen := hS.length
  have hpos : 0 < its.length := by omega
  have hnd := hS.ids.nodup_iff.mpr hS.nodup
  rw [ids_plug_perm.nodup_iff, List.nodup_append'] at hnd
  obtain ⟨_, hpnd, hdisj⟩ := hnd
  simp only [ids_cons, List.nodup_cons, List.mem_append, not_or] at hpnd
  obtain ⟨i, hi, hpi, hy, hkids⟩ := (Every.of_plug hS.every).1
  obtain rfl : i = j := hS.inj hi hj (hpi.symm.trans hp)
  refine ⟨?_, ?_, ?_, ?_, hS.every.plug rfl ⟨?_, ?_, ?_⟩ fun b z l hb hnode => ?_⟩
  · rw [List.length_append, hlen, hsize, List.length_singleton]
  · rw [getD_snoc_of_lt hpos, ← hS.roots]
    exact roots_plug rfl
  · exact ids_snoc_perm.trans (hS.ids.append_right [a])
  · rw [List.nodup_append']
    refine ⟨hS.nodup, List.nodup_singleton a, ?_⟩
    simpa using ha
  · -- the parent of the new node
    refine ⟨i, by omega, ?_, (hT.grows.get? hi).trans hy, ?_⟩
    · rw [hp, getD_snoc_of_lt (by omega)]
    · rw [hT.children, if_pos rfl, List.map_append, List.map_singleton, ← hlen, getD_snoc_length,
        snoc, roots_append, hkids]
      refine congrArg (· ++ [a]) (List.map_congr_left fun c hc => (getD_snoc_of_lt ?_).symm)
      have hlt := children_lt hc
      omega
  · refine Every.append ((Every.of_plug hS.every).2.1.imp fun b z l hb hnode => ?_)
      ⟨?_, trivial, trivial⟩
    · refine hnode.appended hlen hT ?_
      rintro rfl
      exact hpnd.1.1 (hp ▸ hb)
    · refine ⟨T.size, by omega, ?_, hT.get?, ?_⟩
      · rw [← hlen, getD_snoc_length]
      · rw [hT.children_new hj]
        rfl
  · refine (Every.of_plug hS.every).2.2.imp fun b z l hb hnode => hnode.appended hlen hT ?_
    rintro rfl
    exact hpnd.1.2 (hp ▸ hb)
  · refine hnode.appended hlen hT ?_
    rintro rfl
    exact hdisj hb (by simp [hp])

/-! ## The program -/

theorem nodes_appendChild (hT : T.appendChild p x = some T') :
    T'.nodes = T.nodes ++ [(x, some p)] := by
  unfold AppendTree.appendChild at hT
  split at hT
  · cases hT
    rfl
  · cases hT

theorem Stores.head (a : Ptr) (x : α) : Stores (AppendTree.head x) [a] (.cons a x .nil .nil) where
  length := rfl
  roots := rfl
  ids := .refl _
  nodup := List.nodup_singleton a
  every := ⟨⟨0, Nat.zero_lt_one, rfl, rfl, rfl⟩, trivial, trivial⟩

section Build

variable (A : Allocator)

theorem build_from (h0 : Represents h.cells t f) (hS : Stores T its f) (hsize : T.size ≠ 0)
    {nodes : List (α × Option Nat)} (hnodes : T'.nodes = T.nodes ++ nodes) :
    ∃ h' its' f', t.build A h its nodes = .ok (h', its') ∧ Stores T' its' f' ∧
      Represents h'.cells t f' := by
  induction nodes generalizing h T its f with
  | nil =>
    have hT : T' = T := by
      cases T
      cases T'
      simpa using hnodes
    exact ⟨h, its, f, rfl, hT ▸ hS, h0⟩
  | cons node nodes ih =>
    have hget : T'.nodes[T.size]? = some node := by
      rw [hnodes, AppendTree.size, List.getElem?_append_right (Nat.le_refl _)]
      simp
    obtain ⟨x, _ | j⟩ := node
    · exact absurd (T'.root_eq _ x hget) hsize
    · have hj : j < T.size := T'.parent_lt _ x j hget
      obtain ⟨T₁, hT₁, happended⟩ := AppendTree.appendChild_spec hj x
      have hmem : its.getD j 0 ∈ f.ids := by
        rw [hS.ids.mem_iff, List.getD_eq_getElem?_getD, List.getElem?_eq_getElem (hS.length ▸ hj)]
        exact List.getElem_mem _
      obtain ⟨C, y, kids, rest, rfl⟩ := exists_plug hmem
      obtain ⟨h₁, a, hrun, hfocus, hupdates⟩ := appendChild_spec A (represents_plug.mp h0) x
      have ha : a ∉ its := by
        intro hx
        have hnd := ids_snoc_perm.nodup_iff.mp (represents_plug.mpr hfocus).nodup_ids
        rw [List.nodup_append'] at hnd
        exact hnd.2.2 (hS.ids.mem_iff.mpr hx) (List.mem_singleton.mpr rfl)
      obtain ⟨h', its', f', hbuild, hS', h0'⟩ := ih (represents_plug.mpr hfocus)
        (hS.append rfl hj happended ha) (by have := happended.size; omega)
        (by rw [hnodes, nodes_appendChild hT₁]; simp)
      exact ⟨h', its', f', by simp only [Tree.build, hrun, hbuild, bind, Except.bind], hS', h0'⟩

theorem build_spec (h0 : Represents h.cells t (.nil : Forest Ptr α)) (T : AppendTree α)
    (hsize : T.size ≠ 0) : ∃ h' its f, t.build A h [] T.nodes = .ok (h', its) ∧ Stores T its f ∧
      Represents h'.cells t f := by
  cases hnodes : T.nodes with
  | nil => exact absurd (by rw [AppendTree.size, hnodes]; rfl) hsize
  | cons node nodes =>
    have hget : T.nodes[0]? = some node := by rw [hnodes]; rfl
    obtain ⟨x, _ | j⟩ := node
    · obtain ⟨h₁, a, hrun, h₁r, _⟩ := setHead_spec A h0 x
      have hnodes' : T.nodes = (AppendTree.head x).nodes ++ nodes := hnodes
      obtain ⟨h', its, f, hbuild, hS, h0'⟩ :=
        build_from A h₁r (Stores.head a x) Nat.one_ne_zero hnodes'
      exact ⟨h', its, f, by simp only [Tree.build, hrun, List.nil_append, hbuild, bind, Except.bind],
        hS, h0'⟩
    · exact absurd (T.parent_lt 0 x j hget) (Nat.not_lt_zero j)

/-- In a tree that is empty after any run, the program that makes the nodes of `T` in their order makes
`T`. -/
theorem appendTree_built [Inhabited α] {l : List (TreeCommand α × Ptr)} {w : TreeWorld α}
    (hrun : TreeWorld.Run A (TreeWorld.empty α) l w) (ht : t ∈ w.trees)
    (hempty : t.nodes w.memory = .ok []) (T : AppendTree α) (hsize : T.size ≠ 0) :
    ∃ h' its, t.build A w.memory [] T.nodes = .ok (h', its) ∧ its.length = T.size ∧
      t.nodes h' = .ok (T.preorder.map (its.getD · 0)) ∧
      t.outline h' = .ok (T.preorder.filterMap fun i => (T.get? i).map fun x => (T.depth i, x)) ∧
      ∀ i < T.size, numberOfChildren h' (its.getD i 0) = .ok (.ofNat (T.children i).length) ∧
        ∀ num : UInt32, num.toNat ≤ (T.children i).length → child h' (its.getD i 0) num =
          .ok (((T.children i).map (its.getD · 0)).getD num.toNat 0) := by
  obtain ⟨σ, _, hM⟩ := TreeWorld.run_spec hrun
  obtain ⟨f, hf⟩ := hM.exists_forest ht
  have h0 := hM.represents hf
  obtain rfl : f = .nil := hM.eq_nil hf hempty
  obtain ⟨h', its, f, hbuild, hS, h0'⟩ := build_spec A h0 T hsize
  obtain ⟨hids, houtline⟩ := hS.preorder hsize
  refine ⟨h', its, hbuild, hS.length, ?_, ?_, fun i hi => ?_⟩
  · rw [TreeWorld.nodes_spec h0', hids]
  · rw [(TreeWorld.iterates h0').outline, houtline]
  · have hmem : its.getD i 0 ∈ f.ids := by
      rw [hS.ids.mem_iff, List.getD_eq_getElem?_getD, List.getElem?_eq_getElem (hS.length ▸ hi)]
      exact List.getElem_mem _
    obtain ⟨C, y, kids, rest, rfl⟩ := exists_plug hmem
    have htells := TreeWorld.tells (represents_plug.mp h0')
    obtain ⟨j, hj, hij, _, hkids⟩ := (Every.of_plug hS.every).1
    obtain rfl : i = j := hS.inj hi hj hij
    have hlen : kids.roots.length = (T.children i).length := by rw [hkids, List.length_map]
    refine ⟨hlen ▸ htells.numberOfChildren, fun num hnum => ?_⟩
    rw [← hkids]
    exact htells.child num (hlen ▸ hnum)

end Build

def smallAppendTree : AppendTree Nat :=
  ((AppendTree.head 10).appendChild 0 20).get rfl

theorem appendTree_built_small : ∃ h' its,
    TreeWorld.smallTree.build TreeWorld.nextAddress TreeWorld.newHeap [] smallAppendTree.nodes =
      .ok (h', its) ∧ its.length = smallAppendTree.size ∧
      TreeWorld.smallTree.nodes h' = .ok (smallAppendTree.preorder.map (its.getD · 0)) ∧
      TreeWorld.smallTree.outline h' = .ok (smallAppendTree.preorder.filterMap fun i =>
        (smallAppendTree.get? i).map fun x => (smallAppendTree.depth i, x)) ∧
      ∀ i < smallAppendTree.size, numberOfChildren h' (its.getD i 0) =
          .ok (.ofNat (smallAppendTree.children i).length) ∧
        ∀ num : UInt32, num.toNat ≤ (smallAppendTree.children i).length →
          child h' (its.getD i 0) num =
            .ok (((smallAppendTree.children i).map (its.getD · 0)).getD num.toNat 0) :=
  appendTree_built TreeWorld.nextAddress TreeWorld.run_new (.head _) rfl smallAppendTree (by decide)

end Tree
end DepTaint
