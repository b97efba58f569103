import DepTaint.Base.Fold
import DepTaint.Base.Worklist
import DepTaint.ParameterTrees

/-!
# TreeDepth

The builder of parameter trees terminates on finite type graphs, cyclic ones included.

A node is expanded only below nodes whose type does not repeat above their parent. So the types on
the path to an expanded node are `Apart`, and each type occurs on it twice at most.

* `Growing`: what holds of the tree while it is built.
* `buildFormalTypeTree_spec`: one call, at a node with such a path, terminates and keeps it.
* `buildFormalTree_terminates`: the tree is built, and its depth is at most `2N + 1`.
-/

namespace DepTaint

namespace TypeTable

/-- The types reachable from `T` by containment, `T` included. -/
def reachable (types : TypeTable) (T : TypeId) : Set TypeId :=
  {u | Relation.ReflTransGen (fun t u => u ∈ types.containedTypes t) T u}

/-- A set that is closed under containment holds the reachable types. -/
theorem reachable_subset {types : TypeTable} {T : TypeId} {S : Set TypeId} (hT : T ∈ S)
    (h : ∀ t ∈ S, ∀ u ∈ types.containedTypes t, u ∈ S) : types.reachable T ⊆ S := by
  intro u hu
  induction hu with
  | refl => exact hT
  | tail _ hc ih => exact h _ ih _ hc

end TypeTable

namespace ParameterTree

open AppendTree

section Fuel

variable {types : TypeTable} {heap : Heap} {func : FuncId} {arg : ArgId}

theorem appendField_eq_ok {insert_loc : Option Nat} {s s' : State} {ty : TypeId} :
    appendField heap func arg s insert_loc ty = .ok s' ↔
      ∃ p tree, insert_loc = some p ∧
        s.tree.appendChild p (fieldWrapper heap func arg s ty .parameterField) = some tree ∧
        s' = { id := s.id + 1
               nodes := setInsert FieldWrapper.addr
                 (fieldWrapper heap func arg s ty .parameterField) s.nodes
               allocated := s.allocated + 1
               tree := tree } := by
  simp only [appendField]
  cases insert_loc with
  | none => simp
  | some p =>
    rw [Option.bind_some]
    cases happ : s.tree.appendChild p (fieldWrapper heap func arg s ty .parameterField) with
    | none => simp [happ]
    | some tree => simp [happ, eq_comm]

/-- One iteration: the child is appended, and expanded unless the type repeats or is not taken
apart. -/
theorem addField_eq_ok {build : TypeWrapper → State → Except Fault State} {insert_loc : Option Nat}
    {s s' : State} {ty : TypeId} :
    addField types heap func arg build insert_loc s ty = .ok s' ↔
      ∃ s1, appendField heap func arg s insert_loc ty = .ok s1 ∧
        if insert_loc.any (recursionFlag s1.tree) ∨ types.isUnseparated ty then s' = s1
        else build ⟨ty, s.id⟩ s1 = .ok s' := by
  unfold addField
  rw [bind_eq_ok]
  refine exists_congr fun s1 => and_congr_right fun _ => ?_
  by_cases h1 : insert_loc.any (recursionFlag s1.tree) = true
  · rw [if_pos h1, if_pos (.inl h1)]
    exact ⟨fun h => (Except.ok.inj h).symm, fun h => congrArg Except.ok h.symm⟩
  · rw [if_neg h1]
    by_cases h2 : types.isUnseparated ty = true
    · rw [if_pos h2, if_pos (.inr h2)]
      exact ⟨fun h => (Except.ok.inj h).symm, fun h => congrArg Except.ok h.symm⟩
    · rw [if_neg h2, if_neg (not_or.mpr ⟨h1, h2⟩)]

/-- More fuel gives the same tree. -/
theorem buildFormalTypeTree_succ {fuel : Nat} {tyW : TypeWrapper} {s s' : State}
    (h : buildFormalTypeTree types heap func arg fuel tyW s = .ok s') :
    buildFormalTypeTree types heap func arg (fuel + 1) tyW s = .ok s' := by
  induction fuel generalizing tyW s s' with
  | zero => cases h
  | succ fuel ih =>
    unfold buildFormalTypeTree at h ⊢
    generalize types.shape tyW.ty = shape at h ⊢
    cases shape with
    | pointer elementType =>
      refine foldlM_refines (fun s1 ty s2 hs => ?_) h
      obtain ⟨s3, h3, hs⟩ := addField_eq_ok.mp hs
      refine addField_eq_ok.mpr ⟨s3, h3, ?_⟩
      split
      · rwa [if_pos ‹_›] at hs
      · rw [if_neg ‹_›] at hs
        exact ih hs
    | function _ _ | struct _ | sequential _ | scalar => exact h

theorem buildFormalTypeTree_mono {m n : Nat} (hmn : m ≤ n) {tyW : TypeWrapper} {s s' : State}
    (h : buildFormalTypeTree types heap func arg m tyW s = .ok s') :
    buildFormalTypeTree types heap func arg n tyW s = .ok s' := by
  induction hmn with
  | refl => exact h
  | step _ ih => exact buildFormalTypeTree_succ ih

end Fuel

/-! ## The growing tree -/

/-- The types on the way from a node up to the root. -/
abbrev typePath (tree : AppendTree FieldWrapper) (i : Nat) : List (Option TypeId) :=
  tree.path FieldWrapper.fieldType i

/-- The builder runs on an argument of type `T`, with ids from `id0`. -/
structure Growing (types : TypeTable) (T : TypeId) (id0 : Int) (s : State) : Prop where
  ids : ∀ i w, s.tree.get? i = some w → w.fieldId = id0 + i
  counter : s.id = id0 + s.tree.size
  types_mem : ∀ i w, s.tree.get? i = some w → w.fieldType ∈ types.reachable T
  apart : ∀ i < s.tree.size, Apart ((typePath s.tree i).drop 2)

section Growing

variable {types : TypeTable} {heap : Heap} {func : FuncId} {arg : ArgId} {T : TypeId} {id0 : Int}
  {s : State}

/-- Paths of expanded nodes are short. -/
theorem Growing.length_le (h : Growing types T id0 s) (hfin : (types.reachable T).Finite)
    {l : List (Option TypeId)} (hl : Apart l) {i : Nat} (hi : i < s.tree.size)
    (hsub : l ⊆ typePath s.tree i) : l.length ≤ 2 * (types.reachable T).ncard := by
  rw [← Set.ncard_image_of_injective (types.reachable T) (Option.some_injective TypeId)]
  refine hl.length_le (hfin.image some) fun y hy => ?_
  obtain ⟨j, w, hw, rfl⟩ := mem_path hi (hsub hy)
  exact ⟨w.fieldType, h.types_mem j w hw, rfl⟩

/-- The search finds the node whose id it looks for. -/
theorem Growing.insertLoc_eq (h : Growing types T id0 s) {i : Nat} (hi : i < s.tree.size)
    {tyW : TypeWrapper} (hid : tyW.id = id0 + i) : insertLoc s.tree tyW = some i := by
  have hiff : ∀ j, ((s.tree.get? j).any fun w => w.fieldId = tyW.id) = true ↔ j = i := by
    intro j
    rw [Option.any_eq_true]
    constructor
    · intro hx
      obtain ⟨w, hw, hwid⟩ := hx
      rw [decide_eq_true_eq, h.ids j w hw, hid] at hwid
      omega
    · rintro rfl
      obtain ⟨w, hw⟩ := exists_get? hi
      exact ⟨w, hw, decide_eq_true ((h.ids j w hw).trans hid.symm)⟩
  have hsome : (insertLoc s.tree tyW).isSome :=
    List.find?_isSome.mpr ⟨i, mem_preorder hi, (hiff i).mpr rfl⟩
  obtain ⟨j, hj⟩ := Option.isSome_iff_exists.mp hsome
  have hp := hj
  unfold insertLoc at hp
  have hji : j = i := (hiff j).mp (by simpa only using List.find?_some hp)
  rw [hj, hji]

variable (heap func arg) in
/-- Appending a child below a node whose path, from the parent on, is apart. -/
theorem Growing.appendField (h : Growing types T id0 s) {p : Nat} (hp : p < s.tree.size)
    {ty : TypeId} (hty : ty ∈ types.reachable T) (hpath : Apart (typePath s.tree p).tail) :
    ∃ s' w, appendField heap func arg s (some p) ty = .ok s' ∧ w.fieldType = ty ∧
      Appended s.tree p w s'.tree ∧ Growing types T id0 s' := by
  obtain ⟨tree, htree, happ⟩ :=
    appendChild_spec hp (fieldWrapper heap func arg s ty .parameterField)
  refine ⟨_, _, appendField_eq_ok.mpr ⟨p, tree, rfl, htree, rfl⟩, rfl, happ, ?_, ?_, ?_, ?_⟩
  · intro i w hw
    rcases happ.lt_or_eq (lt_size_of_get? hw) with hi | rfl
    · exact h.ids i w (happ.grows.get? hi ▸ hw)
    · obtain rfl := Option.some.inj (happ.get?.symm.trans hw)
      exact h.counter
  · rw [happ.size, h.counter, Int.natCast_succ, Int.add_assoc]
  · intro i w hw
    rcases happ.lt_or_eq (lt_size_of_get? hw) with hi | rfl
    · exact h.types_mem i w (happ.grows.get? hi ▸ hw)
    · obtain rfl := Option.some.inj (happ.get?.symm.trans hw)
      exact hty
  · intro i hi
    rcases happ.lt_or_eq hi with hi | rfl
    · rw [typePath, happ.grows.path hi]
      exact h.apart i hi
    · -- the path of the new node is that of `p` behind its own type
      rw [typePath, happ.path hp]
      exact List.drop_one ▸ hpath

/-- The flag says whether the type recurs above the parent. -/
theorem recursionFlag_eq_false {tree : AppendTree FieldWrapper} {p : Nat}
    (hpath : Apart (typePath tree p).tail) (h : recursionFlag tree p = false) :
    Apart (typePath tree p) := by
  unfold typePath AppendTree.path at hpath ⊢
  rw [List.map_cons] at hpath ⊢
  refine ⟨fun hmem => ?_, hpath⟩
  rw [← List.map_tail, List.mem_map] at hmem
  obtain ⟨b, hb, he⟩ := hmem
  refine absurd h (Bool.not_eq_false _ ▸ ?_)
  exact List.any_eq_true.mpr ⟨b, hb, decide_eq_true he.symm⟩

/-- `tyW` stands for the node `p`, which may be expanded. -/
structure Expandable (id0 : Int) (s : State) (tyW : TypeWrapper) (p : Nat) : Prop where
  id : tyW.id = id0 + p
  lt_size : p < s.tree.size
  fieldType : (s.tree.get? p).map FieldWrapper.fieldType = some tyW.ty
  apart : Apart (typePath s.tree p).tail

/-- If the expansion is not cut at `p`, the child just appended may be expanded. -/
theorem Growing.expandable_child (h : Growing types T id0 s) {s1 : State} {p : Nat} {ty : TypeId}
    {w : FieldWrapper} (hp : p < s.tree.size) (hpath : Apart (typePath s.tree p).tail)
    (happ : Appended s.tree p w s1.tree) (hw : w.fieldType = ty)
    (hflag : recursionFlag s1.tree p = false) : Expandable id0 s1 ⟨ty, s.id⟩ s.tree.size := by
  have hp1 : typePath s1.tree p = typePath s.tree p := happ.grows.path hp
  have hchild : typePath s1.tree s.tree.size = some w.fieldType :: typePath s.tree p :=
    happ.path hp
  exact {
    id := h.counter
    lt_size := happ.lt_size
    fieldType := by rw [happ.get?, Option.map_some, hw]
    apart := by
      rw [hchild, List.tail_cons, ← hp1]
      exact recursionFlag_eq_false (hp1 ▸ hpath) hflag }

variable (heap func arg) in
/-- One iteration at `p`, where the recursive call builds at any node that lies one below. -/
theorem Growing.addField (h : Growing types T id0 s)
    (build : TypeWrapper → State → Except Fault State) {p : Nat} {ty : TypeId}
    (hp : p < s.tree.size) (hpath : Apart (typePath s.tree p).tail)
    (hty : ty ∈ types.reachable T)
    (hbuild : ∀ s1 tyW c, Growing types T id0 s1 → Expandable id0 s1 tyW c →
      (typePath s1.tree c).length = (typePath s.tree p).length + 1 →
      ∃ s2, build tyW s1 = .ok s2 ∧ Growing types T id0 s2 ∧ Extends s1.tree s2.tree) :
    ∃ s', addField types heap func arg build (some p) s ty = .ok s' ∧ Growing types T id0 s' ∧
      Extends s.tree s'.tree := by
  obtain ⟨s1, w, hs1, hw, happ, h1⟩ :=
    h.appendField heap func arg hp hty hpath
  by_cases hcut : recursionFlag s1.tree p = true ∨ types.isUnseparated ty = true
  · exact ⟨s1, addField_eq_ok.mpr ⟨s1, hs1, by rw [Option.any_some, if_pos hcut]⟩, h1, happ.grows⟩
  · -- `p` does not recur above its parent, so the child may be expanded
    obtain ⟨hflag, _⟩ := not_or.mp hcut
    have hchild : typePath s1.tree s.tree.size = some w.fieldType :: typePath s.tree p :=
      happ.path hp
    have hexp := h.expandable_child hp hpath happ hw (Bool.eq_false_iff.mpr hflag)
    obtain ⟨s2, hs2, h2, hext⟩ := hbuild s1 _ _ h1 hexp (by rw [hchild, List.length_cons])
    exact ⟨s2, addField_eq_ok.mpr ⟨s1, hs1, by rwa [Option.any_some, if_neg hcut]⟩, h2,
      happ.grows.trans hext⟩

variable (heap func arg) in
/-- A call at an expandable node builds, if the fuel and the length of the path together exceed
twice the number of types. -/
theorem buildFormalTypeTree_spec (hfin : (types.reachable T).Finite) {m : Nat} {tyW : TypeWrapper}
    {p : Nat} (h : Growing types T id0 s) (he : Expandable id0 s tyW p)
    (hm : 2 * (types.reachable T).ncard + 1 < m + (typePath s.tree p).length) :
    ∃ s', buildFormalTypeTree types heap func arg m tyW s = .ok s' ∧ Growing types T id0 s' ∧
      Extends s.tree s'.tree := by
  induction m generalizing tyW s p with
  | zero =>
    have hlen := h.length_le hfin he.apart he.lt_size (List.tail_subset _)
    rw [List.length_tail] at hlen
    omega
  | succ m ih =>
    unfold buildFormalTypeTree
    have hmem : tyW.ty ∈ types.reachable T := by
      obtain ⟨w, hw, hty⟩ := Option.map_eq_some_iff.mp he.fieldType
      exact hty ▸ h.types_mem p w hw
    cases hshape : types.shape tyW.ty with
    | pointer elementType =>
      rw [h.insertLoc_eq he.lt_size he.id]
      have helem : elementType ∈ types.reachable T :=
        hmem.tail (by rw [TypeTable.containedTypes, hshape]; exact List.mem_singleton_self _)
      refine foldlM_invariant
        (P := fun _ s1 => Growing types T id0 s1 ∧ Extends s.tree s1.tree) ⟨h, .refl _⟩ ?_
      intro pre ty post s1 hl hs1
      obtain ⟨h1, hext⟩ := hs1
      have hp1 : typePath s1.tree p = typePath s.tree p := hext.path he.lt_size
      obtain ⟨s2, hs2, h2, hext'⟩ := h1.addField heap func arg
        (buildFormalTypeTree types heap func arg m)
        (Nat.lt_of_lt_of_le he.lt_size hext.size_le) (hp1 ▸ he.apart)
        (helem.tail (hl ▸ List.mem_append_right pre (List.mem_cons_self ..)))
        fun s3 tyW3 c h3 he3 hlen => ih h3 he3 (by rw [hlen, hp1]; omega)
      exact ⟨s2, hs2, h2, hext.trans hext'⟩
    | function _ _ | struct _ | sequential _ | scalar => exact ⟨s, rfl, h, .refl _⟩

end Growing

theorem growing_head {types : TypeTable} {T : TypeId} {id : Int} {nodes : List FieldWrapper}
    {allocated : Nat} {w : FieldWrapper} (hid : w.fieldId = id) (hty : w.fieldType = T) :
    Growing types T id ⟨id + 1, nodes, allocated, .head w⟩ ∧
      Expandable id ⟨id + 1, nodes, allocated, .head w⟩ ⟨T, id⟩ 0 := by
  have hget : ∀ i x, (AppendTree.head w).get? i = some x → i = 0 ∧ x = w := by
    intro i x hx
    have hi := lt_size_of_get? hx
    obtain rfl : i = 0 := Nat.lt_one_iff.mp hi
    exact ⟨rfl, (Option.some.inj hx).symm⟩
  have hpath : typePath (AppendTree.head w) 0 = [some T] := by
    rw [typePath, path, ancestors_of_none rfl, ← hty]
    rfl
  constructor
  · refine ⟨fun i x hx => ?_, rfl, fun i x hx => ?_, fun i hi => ?_⟩
    · obtain ⟨rfl, rfl⟩ := hget i x hx
      exact hid.trans (Int.add_zero _).symm
    · obtain ⟨rfl, rfl⟩ := hget i x hx
      exact hty ▸ .refl
    · obtain rfl : i = 0 := Nat.lt_one_iff.mp hi
      rw [hpath]
      trivial
  · exact ⟨(Int.add_zero _).symm, Nat.one_pos, congrArg some hty, by rw [hpath]; trivial⟩

/-- The depth of a node is bounded by its expanded ancestors, all but the node and its parent. -/
theorem Growing.depth_le {types : TypeTable} {T : TypeId} {id0 : Int} {s : State}
    (h : Growing types T id0 s) (hfin : (types.reachable T).Finite) {i : Nat}
    (hi : i < s.tree.size) : s.tree.depth i ≤ 2 * (types.reachable T).ncard + 1 := by
  have hlen := h.length_le hfin (h.apart i hi) hi (List.drop_subset ..)
  rw [List.length_drop, length_path] at hlen
  omega

/-- Over finitely many types the builder returns, with enough fuel. -/
theorem buildFormalTree_returns (types : TypeTable) (heap : Heap) (func : FuncId) (arg : ArgId)
    {T : TypeId} (hfin : (types.reachable T).Finite) (id : Int) (nodes : List FieldWrapper)
    (allocated : Nat) :
    ∃ s, Growing types T id s ∧ ∃ n, ∀ fuel, n ≤ fuel →
      buildFormalTree types heap func arg fuel T id nodes allocated = .ok { s with id := 0 } := by
  let treeTyW : FieldWrapper := ⟨heap.addr allocated, func, arg, T, id, .formalIn⟩
  let s0 : State := ⟨id + 1, setInsert FieldWrapper.addr treeTyW nodes, allocated + 1,
    .head treeTyW⟩
  obtain ⟨h0, he⟩ : Growing types T id s0 ∧ Expandable id s0 ⟨T, id⟩ 0 := growing_head rfl rfl
  by_cases hskip : (types.isFile T || types.isFunctionPtr T) = true
  · refine ⟨s0, h0, 0, fun fuel _ => ?_⟩
    rw [buildFormalTree, if_pos hskip]
    rfl
  · have hm : 2 * (types.reachable T).ncard + 1 <
        2 * (types.reachable T).ncard + 1 + (typePath s0.tree 0).length := by
      rw [length_path]
      omega
    obtain ⟨s1, hs1, h1, _⟩ := buildFormalTypeTree_spec heap func arg hfin h0 he hm
    refine ⟨s1, h1, 2 * (types.reachable T).ncard + 1, fun fuel hle => ?_⟩
    rw [buildFormalTree, if_neg hskip, buildFormalTypeTree_mono hle hs1]
    rfl

/-- The tree of an argument is built whatever the type graph is like, if only finitely many types
are reachable, and its depth is bounded by their number. -/
theorem buildFormalTree_terminates (types : TypeTable) (heap : Heap) (func : FuncId) (arg : ArgId)
    {T : TypeId} (hfin : (types.reachable T).Finite) (id : Int) (nodes : List FieldWrapper)
    (allocated : Nat) :
    ∃ s', (∃ n, ∀ fuel, n ≤ fuel →
        buildFormalTree types heap func arg fuel T id nodes allocated = .ok s') ∧
      ∀ i < s'.tree.size, s'.tree.depth i ≤ 2 * (types.reachable T).ncard + 1 := by
  obtain ⟨s, h, hs⟩ := buildFormalTree_returns types heap func arg hfin id nodes allocated
  exact ⟨{ s with id := 0 }, hs, fun i hi => h.depth_le hfin hi⟩

section Sample

/-- A list node: an integer and a pointer to the next node. -/
def listNode : TypeTable where
  shape
    | 0 => .pointer 1
    | 1 => .struct [2, 0]
    | _ => .scalar
  print
    | 0 => "%struct.node*"
    | 1 => "%struct.node"
    | _ => "i32"

theorem listNode_finite {T : TypeId} (hT : T ≤ 2) : (listNode.reachable T).Finite := by
  refine (Set.finite_le_nat 2).subset (TypeTable.reachable_subset hT ?_)
  intro t ht u hu
  have hle : ∀ t ≤ 2, ∀ u ∈ listNode.containedTypes t, u ≤ 2 := by decide
  exact hle t ht u hu

theorem buildFormalTree_terminates_listNode :
    (listNode.reachable 0).Finite ∧
      ∃ s', (∃ n, ∀ fuel, n ≤ fuel →
          buildFormalTree listNode ⟨id, fun _ _ h => h⟩ 0 0 fuel 0 0 [] 0 = .ok s') ∧
        ∀ i < s'.tree.size, s'.tree.depth i ≤ 2 * (listNode.reachable 0).ncard + 1 :=
  ⟨listNode_finite (Nat.zero_le 2),
    buildFormalTree_terminates listNode _ 0 0 (listNode_finite (Nat.zero_le 2)) 0 [] 0⟩

end Sample

end ParameterTree
end DepTaint
