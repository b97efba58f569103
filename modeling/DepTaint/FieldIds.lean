import DepTaint.TreeDepth

/-!
# FieldIds

Where the fields of a parameter tree are attached.

`buildFormalTypeTree` knows its node by an id only. The ids count the nodes in the order of their
creation, so the search always ends at the node that was appended for the `TypeWrapper`.

* `Called`: the recursive calls one `buildFormalTree` makes.
* `buildFormalTypeTree_grows`: a call appends the contained types to its node and leaves the
  children of all other old nodes alone.
* `Called.remains`: what runs after a call leaves its children alone, too.
* `buildFormalTree_attaches`: the search is exact at every call, ids are distinct, and the children
  of an expanded node are the contained types.
-/

namespace DepTaint
namespace ParameterTree

open AppendTree

/-- The types a node is expanded into: those contained in the type it points to. -/
def pointeeTypes (types : TypeTable) (ty : TypeId) : List TypeId :=
  match types.shape ty with
  | .pointer elementType => types.containedTypes elementType
  | _ => []

theorem pointeeTypes_subset_reachable {types : TypeTable} {T ty : TypeId}
    (h : ty ∈ types.reachable T) : ∀ u ∈ pointeeTypes types ty, u ∈ types.reachable T := by
  intro u hu
  unfold pointeeTypes at hu
  cases hshape : types.shape ty with
  | pointer elementType =>
    rw [hshape] at hu
    have helem : elementType ∈ types.reachable T :=
      h.tail (by rw [TypeTable.containedTypes, hshape]; exact List.mem_singleton_self _)
    exact helem.tail hu
  | function _ _ | struct _ | sequential _ | scalar =>
    rw [hshape] at hu
    cases hu

section Model

variable (types : TypeTable) (heap : Heap) (func : FuncId) (arg : ArgId)

/-- The nodes of the search in `buildFormalTypeTree` that carry the id of `tyW`. -/
def insertLocs (tree : AppendTree FieldWrapper) (tyW : TypeWrapper) : List Nat :=
  tree.preorder.filter fun treeIt => (tree.get? treeIt).any fun w => w.fieldId = tyW.id

/-- The state in which `buildFormalTree` calls `buildFormalTypeTree`. -/
def rootState (ty : TypeId) (id : Int) (nodes : List FieldWrapper) (allocated : Nat) : State :=
  let treeTyW : FieldWrapper :=
    { addr := heap.addr allocated, func := func, arg := arg, fieldType := ty, fieldId := id,
      type := .formalIn }
  { id := id + 1, nodes := setInsert FieldWrapper.addr treeTyW nodes, allocated := allocated + 1,
    tree := .head treeTyW }

/-- The calls `buildFormalTypeTree(arg, tyW, treeTy)` of one `buildFormalTree`, with the fuel left,
the state they start from and the node that was created for `tyW`. -/
inductive Called (fuel : Nat) (T : TypeId) (id : Int) (nodes : List FieldWrapper)
    (allocated : Nat) : Nat → TypeWrapper → State → Nat → Prop where
  | root : (types.isFile T || types.isFunctionPtr T) = false →
      Called fuel T id nodes allocated fuel ⟨T, id⟩ (rootState heap func arg T id nodes allocated) 0
  | field {m : Nat} {tyW : TypeWrapper} {s s1 s2 : State} {p : Nat} {pre post : List TypeId}
      {ty : TypeId} :
      Called fuel T id nodes allocated (m + 1) tyW s p →
      pointeeTypes types tyW.ty = pre ++ ty :: post →
      pre.foldlM (addField types heap func arg (buildFormalTypeTree types heap func arg m)
        (insertLoc s.tree tyW)) s = .ok s1 →
      appendField heap func arg s1 (insertLoc s.tree tyW) ty = .ok s2 →
      ¬((insertLoc s.tree tyW).any (recursionFlag s2.tree) ∨ types.isUnseparated ty) →
      Called fuel T id nodes allocated m ⟨ty, s1.id⟩ s2 s1.tree.size

end Model

section Spec

variable {types : TypeTable} {heap : Heap} {func : FuncId} {arg : ArgId} {T : TypeId} {id0 : Int}
  {s s' : State} {tyW : TypeWrapper} {p : Nat}

/-- The types of the children of a node, in order. -/
abbrev childTypes (tree : AppendTree FieldWrapper) (i : Nat) : List (Option TypeId) :=
  tree.childLabels FieldWrapper.fieldType i

/-- A call is its loop over the contained types of the pointee. -/
theorem buildFormalTypeTree_succ_eq (m : Nat) :
    buildFormalTypeTree types heap func arg (m + 1) tyW s =
      (pointeeTypes types tyW.ty).foldlM (addField types heap func arg
        (buildFormalTypeTree types heap func arg m) (insertLoc s.tree tyW)) s := by
  unfold buildFormalTypeTree pointeeTypes
  cases types.shape tyW.ty <;> rfl

/-- The search finds no other node either. -/
theorem Growing.insertLocs_eq (h : Growing types T id0 s) (hp : p < s.tree.size)
    (hid : tyW.id = id0 + p) : insertLocs s.tree tyW = [p] := by
  have hmem : ∀ j, j ∈ insertLocs s.tree tyW ↔ j = p := by
    intro j
    unfold insertLocs
    rw [List.mem_filter, mem_preorder_iff, Option.any_eq_true]
    constructor
    · intro hx
      obtain ⟨_, w, hw, hwid⟩ := hx
      rw [decide_eq_true_eq, h.ids j w hw, hid] at hwid
      omega
    · intro hj
      obtain ⟨w, hw⟩ := exists_get? hp
      subst hj
      exact ⟨hp, w, hw, decide_eq_true ((h.ids j w hw).trans hid.symm)⟩
  have hnodup : (insertLocs s.tree tyW).Nodup := s.tree.nodup_preorder.filter _
  refine List.perm_singleton.mp ?_
  exact (List.perm_ext_iff_of_nodup hnodup (List.nodup_singleton p)).mpr fun j => by
    rw [hmem j, List.mem_singleton]

/-- One iteration that does not fault, where the recursive call grows at the node it is given. -/
theorem Growing.addField_grows (h : Growing types T id0 s)
    {build : TypeWrapper → State → Except Fault State} {ty : TypeId} (hp : p < s.tree.size)
    (hpath : Apart (typePath s.tree p).tail) (hty : ty ∈ types.reachable T)
    (hadd : ParameterTree.addField types heap func arg build (some p) s ty = .ok s')
    (hbuild : ∀ s1 tyW c s2, Growing types T id0 s1 → Expandable id0 s1 tyW c →
      build tyW s1 = .ok s2 → Growing types T id0 s2 ∧ GrowsAt s1.tree c s2.tree) :
    Growing types T id0 s' ∧ GrowsAt s.tree p s'.tree ∧
      childTypes s'.tree p = childTypes s.tree p ++ [some ty] := by
  obtain ⟨s1, hs1, hrest⟩ := addField_eq_ok.mp hadd
  obtain ⟨s1', w, hs1', hw, happ, h1⟩ := h.appendField heap func arg hp hty hpath
  obtain rfl : s1 = s1' := Except.ok.inj (hs1.symm.trans hs1')
  have hchild : childTypes s1.tree p = childTypes s.tree p ++ [some ty] := hw ▸ happ.childLabels
  by_cases hcut : recursionFlag s1.tree p = true ∨ types.isUnseparated ty = true
  · rw [Option.any_some, if_pos hcut] at hrest
    subst hrest
    exact ⟨h1, happ.growsAt, hchild⟩
  · rw [Option.any_some, if_neg hcut] at hrest
    have hflag := Bool.eq_false_iff.mpr (not_or.mp hcut).1
    have hexp := h.expandable_child hp hpath happ hw hflag
    obtain ⟨h2, hgrow⟩ := hbuild s1 _ _ s' h1 hexp hrest
    have hlt : p < s1.tree.size := Nat.lt_trans hp happ.lt_size
    refine ⟨h2, happ.growsAt_trans hgrow, hchild ▸ hgrow.grows.childLabels ?_⟩
    exact hgrow.children p hlt (by omega)

/-- A node stays expandable while the tree grows at it. -/
theorem apart_of_growsAt {t t' : AppendTree FieldWrapper} (h : GrowsAt t p t') (hp : p < t.size)
    (hpath : Apart (typePath t p).tail) : p < t'.size ∧ Apart (typePath t' p).tail := by
  refine ⟨Nat.lt_of_lt_of_le hp h.grows.size_le, ?_⟩
  rw [typePath, h.grows.path hp]
  exact hpath

/-- What a call at an expandable node does: its node gets the contained types as children, no other
old node gets any. -/
structure Grown (types : TypeTable) (T : TypeId) (id0 : Int) (s s' : State) (p : Nat)
    (tys : List TypeId) : Prop where
  growing : Growing types T id0 s'
  grows : GrowsAt s.tree p s'.tree
  childTypes : childTypes s'.tree p = childTypes s.tree p ++ tys.map some

/-- The loop over contained types `tys`. -/
theorem Growing.addFields_grown (h : Growing types T id0 s)
    {build : TypeWrapper → State → Except Fault State} {tys : List TypeId} (hp : p < s.tree.size)
    (hpath : Apart (typePath s.tree p).tail) (htys : ∀ ty ∈ tys, ty ∈ types.reachable T)
    (hadd : tys.foldlM (ParameterTree.addField types heap func arg build (some p)) s = .ok s')
    (hbuild : ∀ s1 tyW c s2, Growing types T id0 s1 → Expandable id0 s1 tyW c →
      build tyW s1 = .ok s2 → Growing types T id0 s2 ∧ GrowsAt s1.tree c s2.tree) :
    Grown types T id0 s s' p tys := by
  induction tys generalizing s with
  | nil =>
    cases hadd
    exact ⟨h, .refl _ p, by simp⟩
  | cons ty tys ih =>
    rw [List.foldlM_cons, bind_eq_ok] at hadd
    obtain ⟨s1, hs1, hadd⟩ := hadd
    obtain ⟨h1, hgrow, hchild⟩ :=
      h.addField_grows hp hpath (htys ty (List.mem_cons_self ..)) hs1 hbuild
    obtain ⟨hp1, hpath1⟩ := apart_of_growsAt hgrow hp hpath
    have hrest := ih h1 hp1 hpath1 (fun u hu => htys u (List.mem_cons_of_mem _ hu)) hadd
    exact ⟨hrest.growing, hgrow.trans hrest.grows, by
      rw [hrest.childTypes, hchild, List.append_assoc, List.map_cons, List.singleton_append]⟩

theorem Growing.type_mem (h : Growing types T id0 s) (he : Expandable id0 s tyW p) :
    tyW.ty ∈ types.reachable T := by
  obtain ⟨w, hw, hty⟩ := Option.map_eq_some_iff.mp he.fieldType
  exact hty ▸ h.types_mem p w hw

/-- A call that does not run out of fuel. -/
theorem buildFormalTypeTree_grown {m : Nat} (h : Growing types T id0 s)
    (he : Expandable id0 s tyW p)
    (hrun : buildFormalTypeTree types heap func arg m tyW s = .ok s') :
    Grown types T id0 s s' p (pointeeTypes types tyW.ty) := by
  induction m generalizing tyW s p s' with
  | zero => cases hrun
  | succ m ih =>
    rw [buildFormalTypeTree_succ_eq, h.insertLoc_eq he.lt_size he.id] at hrun
    refine h.addFields_grown he.lt_size he.apart
      (pointeeTypes_subset_reachable (h.type_mem he)) hrun ?_
    intro s1 tyW1 c s2 h1 he1 hrun1
    have hg := ih h1 he1 hrun1
    exact ⟨hg.growing, hg.grows⟩

/-- The recursive call, as the loop sees it. -/
theorem buildFormalTypeTree_grows (m : Nat) : ∀ s tyW c s', Growing types T id0 s →
    Expandable id0 s tyW c → buildFormalTypeTree types heap func arg m tyW s = .ok s' →
    Growing types T id0 s' ∧ GrowsAt s.tree c s'.tree := by
  intro s tyW c s' h he hrun
  have hg := buildFormalTypeTree_grown h he hrun
  exact ⟨hg.growing, hg.grows⟩

end Spec

section Calls

variable {types : TypeTable} {heap : Heap} {func : FuncId} {arg : ArgId} {fuel : Nat} {T : TypeId}
  {id : Int} {nodes : List FieldWrapper} {allocated : Nat} {m : Nat} {tyW : TypeWrapper}
  {s s' : State} {p : Nat}

/-- No call is made for an argument that is not taken apart. -/
theorem Called.not_skipped (h : Called types heap func arg fuel T id nodes allocated m tyW s p) :
    (types.isFile T || types.isFunctionPtr T) = false := by
  induction h with
  | root hskip => exact hskip
  | field _ _ _ _ _ ih => exact ih

/-- Every call is at an expandable node that has no children yet. -/
theorem Called.expandable
    (h : Called types heap func arg fuel T id nodes allocated m tyW s p) :
    Growing types T id s ∧ Expandable id s tyW p ∧ childTypes s.tree p = [] := by
  induction h with
  | root _ =>
    obtain ⟨h0, he⟩ : Growing types T id (rootState heap func arg T id nodes allocated) ∧
      Expandable id _ ⟨T, id⟩ 0 := growing_head rfl rfl
    exact ⟨h0, he, rfl⟩
  | @field m tyW s s1 s2 p pre post ty _ hl hpre hs2 hcut ih =>
    obtain ⟨h, he, _⟩ := ih
    rw [h.insertLoc_eq he.lt_size he.id] at hpre hs2 hcut
    have hmem := pointeeTypes_subset_reachable (h.type_mem he)
    rw [hl] at hmem
    have hg := h.addFields_grown he.lt_size he.apart
      (fun u hu => hmem u (List.mem_append_left _ hu)) hpre (buildFormalTypeTree_grows m)
    obtain ⟨hp1, hpath1⟩ := apart_of_growsAt hg.grows he.lt_size he.apart
    obtain ⟨s2', w, hs2', hw, happ, h2⟩ := hg.growing.appendField heap func arg hp1
      (hmem ty (List.mem_append_right _ (List.mem_cons_self ..))) hpath1
    obtain rfl : s2 = s2' := Except.ok.inj (hs2.symm.trans hs2')
    have hflag := Bool.eq_false_iff.mpr (not_or.mp hcut).1
    refine ⟨h2, hg.growing.expandable_child hp1 hpath1 happ hw hflag, ?_⟩
    rw [childTypes, childLabels, happ.children_new hp1]
    rfl

/-- The call returns, if `buildFormalTree` does, and what runs afterwards appends no child to its
node or below. -/
theorem Called.remains (h : Called types heap func arg fuel T id nodes allocated m tyW s p)
    (hrun : buildFormalTypeTree types heap func arg fuel ⟨T, id⟩
      (rootState heap func arg T id nodes allocated) = .ok s') :
    ∃ s1, buildFormalTypeTree types heap func arg m tyW s = .ok s1 ∧
      Extends s1.tree s'.tree ∧
      ∀ i, p ≤ i → i < s1.tree.size → s'.tree.children i = s1.tree.children i := by
  induction h with
  | root _ => exact ⟨s', hrun, .refl _, fun _ _ _ => rfl⟩
  | @field m tyW s s1 s2 p pre post ty hcall hl hpre hs2 hcut ih =>
    obtain ⟨s4, hs4, hext, hch⟩ := ih
    obtain ⟨h, he, _⟩ := hcall.expandable
    have hmem := pointeeTypes_subset_reachable (h.type_mem he)
    rw [hl] at hmem
    -- the loop of the caller: the fields before, this one, the fields behind
    rw [buildFormalTypeTree_succ_eq, hl, List.foldlM_append, bind_eq_ok] at hs4
    obtain ⟨s1', hs1', hs4⟩ := hs4
    obtain rfl : s1 = s1' := Except.ok.inj (hpre.symm.trans hs1')
    rw [List.foldlM_cons, bind_eq_ok] at hs4
    obtain ⟨s3, hs3, hs4⟩ := hs4
    rw [h.insertLoc_eq he.lt_size he.id] at hpre hs2 hcut hs3 hs4
    have hg := h.addFields_grown he.lt_size he.apart
      (fun u hu => hmem u (List.mem_append_left _ hu)) hpre (buildFormalTypeTree_grows m)
    obtain ⟨hp1, hpath1⟩ := apart_of_growsAt hg.grows he.lt_size he.apart
    obtain ⟨h3, hgrow3, _⟩ := hg.growing.addField_grows hp1 hpath1
      (hmem ty (List.mem_append_right _ (List.mem_cons_self ..))) hs3 (buildFormalTypeTree_grows m)
    obtain ⟨hp3, hpath3⟩ := apart_of_growsAt hgrow3 hp1 hpath1
    have hg4 := h3.addFields_grown hp3 hpath3
      (fun u hu => hmem u (List.mem_append_right _ (List.mem_cons_of_mem _ hu))) hs4
      (buildFormalTypeTree_grows m)
    obtain ⟨s2', hs2', hbody⟩ := addField_eq_ok.mp hs3
    obtain rfl : s2 = s2' := Except.ok.inj (hs2.symm.trans hs2')
    rw [if_neg hcut] at hbody
    refine ⟨s3, hbody, hg4.grows.grows.trans hext, fun i hi hlt => ?_⟩
    have hle := hg.grows.grows.size_le
    have hlt4 : i < s4.tree.size := Nat.lt_of_lt_of_le hlt hg4.grows.grows.size_le
    have hne : i ≠ p := by
      have := he.lt_size
      omega
    rw [hch i (by omega) hlt4, hg4.grows.children i hlt hne]

/-- The children of the node of a call, when `buildFormalTree` has returned. -/
theorem Called.childTypes_eq (h : Called types heap func arg fuel T id nodes allocated m tyW s p)
    (hrun : buildFormalTypeTree types heap func arg fuel ⟨T, id⟩
      (rootState heap func arg T id nodes allocated) = .ok s') :
    childTypes s'.tree p = (pointeeTypes types tyW.ty).map some := by
  obtain ⟨hgrowing, he, hnil⟩ := h.expandable
  obtain ⟨s1, hs1, hext, hch⟩ := h.remains hrun
  have hg := buildFormalTypeTree_grown hgrowing he hs1
  have hp1 : p < s1.tree.size := Nat.lt_of_lt_of_le he.lt_size hg.grows.grows.size_le
  rw [childTypes, hext.childLabels (hch p (Nat.le_refl _) hp1)]
  exact hg.childTypes.trans (by rw [hnil, List.nil_append])

/-- `buildFormalTree` is the call at the root, unless the argument is not taken apart. -/
theorem buildFormalTree_eq_ok :
    buildFormalTree types heap func arg fuel T id nodes allocated = .ok s' ↔
      ∃ s, (if types.isFile T || types.isFunctionPtr T then
          s = rootState heap func arg T id nodes allocated
        else buildFormalTypeTree types heap func arg fuel ⟨T, id⟩
          (rootState heap func arg T id nodes allocated) = .ok s) ∧ s' = { s with id := 0 } := by
  unfold buildFormalTree
  by_cases hskip : (types.isFile T || types.isFunctionPtr T) = true
  · simp only [if_pos hskip, exists_eq_left]
    exact ⟨fun h => (Except.ok.inj h).symm, fun h => congrArg Except.ok h.symm⟩
  · simp only [if_neg hskip]
    rw [bind_eq_ok]
    refine exists_congr fun s => and_congr Iff.rfl ?_
    exact ⟨fun h => (Except.ok.inj h).symm, fun h => congrArg Except.ok h.symm⟩

/-- A tree that was built counts its nodes. -/
theorem buildFormalTree_growing
    (h : buildFormalTree types heap func arg fuel T id nodes allocated = .ok s') :
    ∃ s, Growing types T id s ∧ s' = { s with id := 0 } := by
  obtain ⟨h0, he⟩ : Growing types T id (rootState heap func arg T id nodes allocated) ∧
    Expandable id _ ⟨T, id⟩ 0 := growing_head rfl rfl
  obtain ⟨s, hs, rfl⟩ := buildFormalTree_eq_ok.mp h
  refine ⟨s, ?_, rfl⟩
  split at hs
  · exact hs ▸ h0
  · exact (buildFormalTypeTree_grown h0 he hs).growing

end Calls

/-- At every call the search finds the node that was created for `tyW` and no other. So the ids of
a tree are distinct, and a node that was expanded has the contained types of its pointee as
children, in order. -/
theorem buildFormalTree_attaches (types : TypeTable) (heap : Heap) (func : FuncId) (arg : ArgId)
    (fuel : Nat) (T : TypeId) (id : Int) (nodes : List FieldWrapper) (allocated : Nat) :
    (∀ m tyW s p, Called types heap func arg fuel T id nodes allocated m tyW s p →
      insertLocs s.tree tyW = [p] ∧ insertLoc s.tree tyW = some p ∧
        ∃ w, s.tree.get? p = some w ∧ w.fieldId = tyW.id ∧ w.fieldType = tyW.ty) ∧
    ∀ s', buildFormalTree types heap func arg fuel T id nodes allocated = .ok s' →
      (∀ i j v w, s'.tree.get? i = some v → s'.tree.get? j = some w → v.fieldId = w.fieldId →
        i = j) ∧
      ∀ m tyW s p elementType,
        Called types heap func arg fuel T id nodes allocated m tyW s p →
        types.shape tyW.ty = .pointer elementType →
        childTypes s'.tree p = (types.containedTypes elementType).map some := by
  constructor
  · intro m tyW s p hcall
    obtain ⟨h, he, _⟩ := hcall.expandable
    obtain ⟨w, hw, hty⟩ := Option.map_eq_some_iff.mp he.fieldType
    exact ⟨h.insertLocs_eq he.lt_size he.id, h.insertLoc_eq he.lt_size he.id, w, hw,
      (h.ids p w hw).trans he.id.symm, hty⟩
  · intro s' hrun
    constructor
    · intro i j v w hv hw hvw
      obtain ⟨s, h, rfl⟩ := buildFormalTree_growing hrun
      rw [h.ids i v hv, h.ids j w hw] at hvw
      omega
    · intro m tyW s p elementType hcall hshape
      obtain ⟨s1, hs1, rfl⟩ := buildFormalTree_eq_ok.mp hrun
      have hskip : (types.isFile T || types.isFunctionPtr T) = false := hcall.not_skipped
      rw [if_neg (by simp [hskip])] at hs1
      have := hcall.childTypes_eq hs1
      rw [pointeeTypes, hshape] at this
      exact this

/-- The root of the tree of a list node, whose id starts at 7. -/
theorem buildFormalTree_attaches_listNode :
    ∃ fuel s', buildFormalTree listNode ⟨id, fun _ _ h => h⟩ 0 0 fuel 0 7 [] 0 = .ok s' ∧
      childTypes s'.tree 0 = [some 2, some 0] := by
  obtain ⟨s, _, n, hn⟩ :=
    buildFormalTree_returns listNode ⟨id, fun _ _ h => h⟩ 0 0 (listNode_finite (Nat.zero_le 2)) 7
      [] 0
  refine ⟨n, _, hn n (Nat.le_refl n), ?_⟩
  have h := (buildFormalTree_attaches listNode ⟨id, fun _ _ h => h⟩ 0 0 n 0 7 [] 0).2 _
    (hn n (Nat.le_refl n))
  exact h.2 n ⟨0, 7⟩ _ 0 1 (.root (by decide)) rfl

end ParameterTree
end DepTaint
