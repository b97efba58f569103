import DepTaint.ArgumentTrees
import DepTaint.FieldIds
import DepTaint.Base.Worklist

/-!
# TreeAlignment

The four trees of an argument agree node by node.

Wrappers are told apart by their addresses. A tree that is built or copied holds the wrappers
allocated meanwhile, so the trees of an argument are disjoint.

* `Owned`: what `buildFormalTree` makes of the registry.
* `copyTree_spec`: a copy has the shape of its source, and new wrappers with the same labels.
* `Aligned.snoc`: a copy is aligned with the trees its source is aligned with.
* `connectFormalNodes_ok`, `connectFourTrees_ok`: iterators over aligned trees end together.
* `parameterTrees_aligned`: the trees of every argument of every call are aligned.
-/

namespace DepTaint
namespace ParameterTree

open AppendTree

/-! ## The tree that is built -/

section Owned

variable {types : TypeTable} {heap : Heap} {func : FuncId} {arg : ArgId} {m : Memory} {s s' : State}

/-- The nodes of the tree are the wrappers allocated since `m`, in their order. -/
structure Owned (heap : Heap) (arg : ArgId) (m : Memory) (s : State) : Prop where
  data : ∀ i w, s.tree.get? i = some w →
    w.addr = heap.addr (m.allocated + i) ∧ w.arg = arg ∧ w ∈ s.nodes
  allocated : s.allocated = m.allocated + s.tree.size
  nodes : m.nodes ⊆ s.nodes
  nonempty : 0 < s.tree.size

theorem Owned.appendField (h : Owned heap arg m s) {insert_loc : Option Nat} {ty : TypeId}
    (hs : ParameterTree.appendField heap func arg s insert_loc ty = .ok s') :
    Owned heap arg m s' := by
  obtain ⟨p, tree, _, hp, rfl⟩ := appendField_eq_ok.mp hs
  have happ := appended_of_eq_some hp
  refine ⟨fun i w hw => ?_, ?_, fun w hw => ?_, Nat.lt_of_lt_of_le h.nonempty happ.grows.size_le⟩
  · rcases happ.lt_or_eq (lt_size_of_get? hw) with hi | rfl
    · obtain ⟨haddr, harg, hmem⟩ := h.data i w (happ.grows.get? hi ▸ hw)
      exact ⟨haddr, harg, mem_setInsert.mpr (.inr hmem)⟩
    · obtain rfl := Option.some.inj (happ.get?.symm.trans hw)
      exact ⟨congrArg heap.addr h.allocated, rfl, mem_setInsert.mpr (.inl rfl)⟩
  · rw [happ.size, h.allocated, Nat.add_assoc]
  · exact mem_setInsert.mpr (.inr (h.nodes hw))

theorem Owned.buildFormalTypeTree {fuel : Nat} {tyW : TypeWrapper} (h : Owned heap arg m s)
    (hs : ParameterTree.buildFormalTypeTree types heap func arg fuel tyW s = .ok s') :
    Owned heap arg m s' := by
  induction fuel generalizing tyW s s' with
  | zero => cases hs
  | succ fuel ih =>
    rw [buildFormalTypeTree_succ_eq] at hs
    refine foldlM_preserves hs h fun s1 ty s2 _ hadd h1 => ?_
    obtain ⟨s3, hs3, hrest⟩ := addField_eq_ok.mp hadd
    split at hrest
    · exact hrest ▸ h1.appendField hs3
    · exact ih (h1.appendField hs3) hrest

theorem buildFormalTree_owned {fuel : Nat} {ty : TypeId}
    (hs : buildFormalTree types heap func arg fuel ty m.id m.nodes m.allocated = .ok s') :
    Owned heap arg m s' := by
  have h0 : Owned heap arg m (rootState heap func arg ty m.id m.nodes m.allocated) := by
    refine ⟨fun i w hw => ?_, rfl, fun w hw => mem_setInsert.mpr (.inr hw), Nat.one_pos⟩
    obtain rfl : i = 0 := Nat.lt_one_iff.mp (lt_size_of_get? hw)
    obtain rfl := Option.some.inj hw
    exact ⟨rfl, rfl, mem_setInsert.mpr (.inl rfl)⟩
  obtain ⟨s, hs1, rfl⟩ := buildFormalTree_eq_ok.mp hs
  have h : Owned heap arg m s := by
    split at hs1
    · exact hs1 ▸ h0
    · exact h0.buildFormalTypeTree hs1
  exact ⟨h.data, h.allocated, h.nodes, h.nonempty⟩

end Owned

/-! ## Copies -/

section Copy

variable {heap : Heap} {src : AppendTree FieldWrapper} {m : Memory}

/-- The wrapper that replaces `w`, the `k`-th one in pre-order. -/
def copyOf (heap : Heap) (m : Memory) (instWTy : InstWrapperType) (k : Nat) (w : FieldWrapper) :
    FieldWrapper where
  addr := heap.addr (m.allocated + k)
  func := w.func
  arg := w.arg
  fieldType := w.fieldType
  fieldId := m.id + k
  type := instWTy

/-- What the loop of `copyTree` makes of the copy. -/
structure CopyOf (heap : Heap) (src : AppendTree FieldWrapper) (instWTy : InstWrapperType)
    (m : Memory) (tree : AppendTree FieldWrapper) (m' : Memory) : Prop where
  shape : tree.shape = src.shape
  data : tree.traversal = src.traversal.mapIdx (copyOf heap m instWTy)
  registered : ∀ w ∈ tree.traversal, w ∈ m'.nodes
  nodes : m.nodes ⊆ m'.nodes
  allocated : m'.allocated = m.allocated + src.traversal.length

theorem map_snd_zip_preorder (src : AppendTree FieldWrapper) :
    (src.traversal.zip src.preorder).map Prod.snd = src.preorder :=
  List.map_snd_zip (Nat.le_of_eq src.length_traversal.symm)

theorem copyNode_spec (heap : Heap) (instWTy : InstWrapperType) (s : State) (w : FieldWrapper)
    (i : Nat) :
    let s' := copyNode heap instWTy s (w, i)
    s'.tree.shape = s.tree.shape ∧ s'.id = s.id + 1 ∧ s'.allocated = s.allocated + 1 ∧
      s.nodes ⊆ s'.nodes ∧ (∀ j ≠ i, s'.tree.get? j = s.tree.get? j) ∧
      (i < s.tree.size → s'.tree.get? i =
        some (copyOf heap ⟨s.id, s.nodes, s.allocated⟩ instWTy 0 w)) ∧
      copyOf heap ⟨s.id, s.nodes, s.allocated⟩ instWTy 0 w ∈ s'.nodes := by
  refine ⟨shape_setData .., rfl, rfl, fun x hx => mem_setInsert.mpr (.inr hx), ?_, ?_, ?_⟩
  · exact fun j hj => get?_setData_of_ne hj
  · intro hi
    exact (get?_setData_self hi).trans (by simp [copyOf])
  · exact mem_setInsert.mpr (.inl (by simp [copyOf]))

/-- The loop of `copyTree` overwrites every node once. -/
theorem copyNodes_spec (heap : Heap) (src : AppendTree FieldWrapper) (instWTy : InstWrapperType)
    (m : Memory) :
    let s := (src.traversal.zip src.preorder).foldl (copyNode heap instWTy)
      ⟨m.id, m.nodes, m.allocated, src⟩
    CopyOf heap src instWTy m s.tree ⟨s.id, s.nodes, s.allocated⟩ := by
  intro s
  have hnodup : ((src.traversal.zip src.preorder).map Prod.snd).Nodup := by
    rw [map_snd_zip_preorder]
    exact src.nodup_preorder
  have hinv := foldl_invariant (f := copyNode heap instWTy) (l := src.traversal.zip src.preorder)
    (s := ⟨m.id, m.nodes, m.allocated, src⟩)
    (P := fun pre s => s.tree.shape = src.shape ∧ s.id = m.id + pre.length ∧
      s.allocated = m.allocated + pre.length ∧ m.nodes ⊆ s.nodes ∧
      ∀ (k : Nat) w i, pre[k]? = some (w, i) →
        s.tree.get? i = some (copyOf heap m instWTy k w) ∧ copyOf heap m instWTy k w ∈ s.nodes)
    ⟨rfl, by simp, rfl, List.Subset.refl _, by simp⟩ ?_
  · obtain ⟨hshape, _, halloc, hnodes, hdata⟩ := hinv
    have hpre : s.tree.preorder = src.preorder := preorder_congr hshape
    have hat : ∀ k w, src.traversal[k]? = some w →
        s.tree.traversal[k]? = some (copyOf heap m instWTy k w) ∧
          copyOf heap m instWTy k w ∈ s.nodes := by
      intro k w hw
      have hw' := hw
      rw [getElem?_traversal] at hw'
      obtain ⟨i, hi, _⟩ := Option.bind_eq_some_iff.mp hw'
      obtain ⟨hget, hmem⟩ := hdata k w i (List.getElem?_zip_eq_some.mpr ⟨hw, hi⟩)
      rw [getElem?_traversal, hpre, hi]
      exact ⟨hget, hmem⟩
    have hlen : s.tree.traversal.length = src.traversal.length := by
      rw [length_traversal, length_traversal, hpre]
    have htraversal : s.tree.traversal = src.traversal.mapIdx (copyOf heap m instWTy) := by
      refine List.ext_getElem? fun k => ?_
      rw [List.getElem?_mapIdx]
      cases hw : src.traversal[k]? with
      | none =>
        have hle := List.getElem?_eq_none_iff.mp hw
        rw [Option.map_none, List.getElem?_eq_none_iff]
        omega
      | some w => exact (hat k w hw).1
    refine ⟨hshape, htraversal, fun w hw => ?_, hnodes, ?_⟩
    · rw [htraversal] at hw
      obtain ⟨k, hk, rfl⟩ := List.mem_mapIdx.mp hw
      exact (hat k _ (List.getElem?_eq_getElem hk)).2
    · rw [halloc, List.length_zip, length_traversal, Nat.min_self]
  · intro pre it post s1 hl h1
    obtain ⟨w, i⟩ := it
    obtain ⟨hshape, hid, halloc, hnodes, hdata⟩ := h1
    obtain ⟨hshape', hid', halloc', hnodes', hother, hself, hmem⟩ :=
      copyNode_spec heap instWTy s1 w i
    have hcopy : copyOf heap ⟨s1.id, s1.nodes, s1.allocated⟩ instWTy 0 w =
        copyOf heap m instWTy pre.length w := by
      simp [copyOf, hid, halloc]
    rw [hcopy] at hself hmem
    refine ⟨hshape'.trans hshape, ?_, ?_, fun x hx => hnodes' (hnodes hx), fun k x j hk => ?_⟩
    · rw [hid', hid, List.length_append, List.length_singleton]
      omega
    · rw [halloc', halloc, List.length_append, List.length_singleton]
      omega
    · rcases getElem?_snoc_iff.mp hk with hold | ⟨rfl, he⟩
      · -- the node of an earlier round is another one
        have hne : j ≠ i := by
          rintro rfl
          rw [hl, List.map_append, List.map_cons] at hnodup
          have hin : j ∈ pre.map Prod.snd :=
            List.mem_map.mpr ⟨(x, j), List.mem_of_getElem? hold, rfl⟩
          exact (List.nodup_append.mp hnodup).2.2 j hin j (List.mem_cons_self ..) rfl
        obtain ⟨hget, hin⟩ := hdata k x j hold
        exact ⟨(hother j hne).trans hget, hnodes' hin⟩
      · cases he
        refine ⟨hself ?_, hmem⟩
        rw [size_eq_shape, hshape, ← size_eq_shape]
        refine mem_preorder_iff.mp ?_
        rw [← map_snd_zip_preorder src, hl, List.map_append, List.map_cons]
        exact List.mem_append_right _ (List.mem_cons_self ..)

/-- A copy of a tree that is not empty. -/
theorem copyTree_spec (heap : Heap) (m : Memory) (argW : ArgumentWrapper) {treeTy : TreeType}
    {instWTy : InstWrapperType} (hsrc : src.size ≠ 0) (hty : treeTy.instWTy = .ok instWTy) :
    ∃ tree m', copyTree heap src treeTy argW m = .ok (argW.setTree tree treeTy, m') ∧
      CopyOf heap src instWTy m tree m' := by
  refine ⟨_, _, ?_, copyNodes_spec heap src instWTy m⟩
  rw [copyTree, if_neg hsrc, hty]

end Copy

/-! ## Alignment -/

/-- What a node stands for. -/
abbrev label (w : FieldWrapper) : ArgId × TypeId := (w.arg, w.fieldType)

/-- Trees that agree node by node and share no wrapper, all of them registered. -/
structure Aligned (nodes : List FieldWrapper) (trees : List (AppendTree FieldWrapper)) : Prop where
  nonempty : ∀ t ∈ trees, t.size ≠ 0
  shape : ∀ t ∈ trees, ∀ t' ∈ trees, t.shape = t'.shape
  labels : ∀ t ∈ trees, ∀ t' ∈ trees, t.traversal.map label = t'.traversal.map label
  disjoint : trees.Pairwise fun t t' => ∀ w ∈ t.traversal, ∀ w' ∈ t'.traversal, w.addr ≠ w'.addr
  registered : ∀ t ∈ trees, ∀ w ∈ t.traversal, w ∈ nodes

/-- The wrappers of the trees were allocated before `m`. -/
def Allocated (heap : Heap) (m : Memory) (trees : List (AppendTree FieldWrapper)) : Prop :=
  ∀ t ∈ trees, ∀ w ∈ t.traversal, ∃ k < m.allocated, w.addr = heap.addr k

/-- The registry and the heap only grow. -/
structure Memory.Grows (m m' : Memory) : Prop where
  nodes : m.nodes ⊆ m'.nodes
  allocated : m.allocated ≤ m'.allocated

section Alignment

variable {heap : Heap} {m m' m'' : Memory} {trees : List (AppendTree FieldWrapper)}

theorem Memory.Grows.refl (m : Memory) : m.Grows m := ⟨List.Subset.refl _, Nat.le_refl _⟩

theorem Memory.Grows.trans (h : m.Grows m') (h' : m'.Grows m'') : m.Grows m'' :=
  ⟨fun _ hw => h'.nodes (h.nodes hw), Nat.le_trans h.allocated h'.allocated⟩

theorem Aligned.mono (h : Aligned m.nodes trees) (hm : m.Grows m') : Aligned m'.nodes trees :=
  ⟨h.nonempty, h.shape, h.labels, h.disjoint, fun t ht w hw => hm.nodes (h.registered t ht w hw)⟩

theorem Allocated.mono (h : Allocated heap m trees) (hm : m.Grows m') :
    Allocated heap m' trees := by
  intro t ht w hw
  obtain ⟨k, hk, haddr⟩ := h t ht w hw
  exact ⟨k, Nat.lt_of_lt_of_le hk hm.allocated, haddr⟩

theorem CopyOf.grows {src tree : AppendTree FieldWrapper} {instWTy : InstWrapperType}
    (hc : CopyOf heap src instWTy m tree m') : m.Grows m' :=
  ⟨hc.nodes, by rw [hc.allocated]; omega⟩

theorem CopyOf.labels {src tree : AppendTree FieldWrapper} {instWTy : InstWrapperType}
    (hc : CopyOf heap src instWTy m tree m') :
    tree.traversal.map label = src.traversal.map label := by
  refine List.ext_getElem? fun k => ?_
  rw [hc.data, List.getElem?_map, List.getElem?_map, List.getElem?_mapIdx, Option.map_map]
  rfl

/-- The addresses of a copy are new. -/
theorem CopyOf.addr {src tree : AppendTree FieldWrapper} {instWTy : InstWrapperType}
    (hc : CopyOf heap src instWTy m tree m') {w : FieldWrapper} (hw : w ∈ tree.traversal) :
    ∃ k, m.allocated ≤ k ∧ k < m'.allocated ∧ w.addr = heap.addr k := by
  rw [hc.data] at hw
  obtain ⟨k, hk, rfl⟩ := List.mem_mapIdx.mp hw
  exact ⟨m.allocated + k, by omega, by rw [hc.allocated]; omega, rfl⟩

/-- A copy of one of several aligned trees is aligned with all of them. -/
theorem Aligned.snoc {src tree : AppendTree FieldWrapper} {instWTy : InstWrapperType}
    (h : Aligned m.nodes trees) (ha : Allocated heap m trees) (hsrc : src ∈ trees)
    (hc : CopyOf heap src instWTy m tree m') :
    Aligned m'.nodes (trees ++ [tree]) ∧ Allocated heap m' (trees ++ [tree]) := by
  have hmem : ∀ t ∈ trees ++ [tree], t ∈ trees ∨ t = tree := fun t ht =>
    (List.mem_append.mp ht).imp_right List.mem_singleton.mp
  have hshape : ∀ t ∈ trees ++ [tree], t.shape = src.shape := by
    intro t ht
    rcases hmem t ht with ht | rfl
    · exact h.shape t ht src hsrc
    · exact hc.shape
  have hlabels : ∀ t ∈ trees ++ [tree], t.traversal.map label = src.traversal.map label := by
    intro t ht
    rcases hmem t ht with ht | rfl
    · exact h.labels t ht src hsrc
    · exact hc.labels
  refine ⟨⟨fun t ht => ?_, ?_, ?_, ?_, ?_⟩, ?_⟩
  · rw [size_eq_shape, hshape t ht, ← size_eq_shape]
    exact h.nonempty src hsrc
  · exact fun t ht t' ht' => (hshape t ht).trans (hshape t' ht').symm
  · exact fun t ht t' ht' => (hlabels t ht).trans (hlabels t' ht').symm
  · refine List.pairwise_append.mpr ⟨h.disjoint, List.pairwise_singleton _ _, ?_⟩
    intro t ht t' ht' w hw w' hw' he
    obtain rfl := List.mem_singleton.mp ht'
    obtain ⟨k, hk, haddr⟩ := ha t ht w hw
    obtain ⟨k', hk', _, haddr'⟩ := hc.addr hw'
    have := heap.addr_injective (haddr.symm.trans (he.trans haddr'))
    omega
  · intro t ht w hw
    rcases hmem t ht with ht | rfl
    · exact hc.nodes (h.registered t ht w hw)
    · exact hc.registered w hw
  · intro t ht w hw
    rcases hmem t ht with ht | rfl
    · exact ha.mono hc.grows t ht w hw
    · obtain ⟨k, _, hk, haddr⟩ := hc.addr hw
      exact ⟨k, hk, haddr⟩

end Alignment

/-! ## The trees of a callee and of a call -/

section Build

variable {types : TypeTable} {heap : Heap} {m m' : Memory} {f a : ArgumentWrapper}

/-- The formal trees of an argument. -/
structure FormalTrees (heap : Heap) (m : Memory) (f : ArgumentWrapper) : Prop where
  aligned : Aligned m.nodes [f.formalInTree, f.formalOutTree]
  allocated : Allocated heap m [f.formalInTree, f.formalOutTree]

theorem FormalTrees.mono (h : FormalTrees heap m f) (hm : m.Grows m') : FormalTrees heap m' f :=
  ⟨h.aligned.mono hm, h.allocated.mono hm⟩

/-- The four trees of an argument, two of the callee and two of the call. -/
abbrev fourTrees (f a : ArgumentWrapper) : List (AppendTree FieldWrapper) :=
  [f.formalInTree, f.formalOutTree, a.actualInTree, a.actualOutTree]

theorem Owned.aligned {arg : ArgId} {s : State} (h : Owned heap arg m s) :
    Aligned s.nodes [s.tree] ∧ Allocated heap ⟨0, s.nodes, s.allocated⟩ [s.tree] := by
  refine ⟨⟨fun t ht => ?_, fun t ht t' ht' => ?_, fun t ht t' ht' => ?_,
    List.pairwise_singleton _ _, fun t ht w hw => ?_⟩, fun t ht w hw => ?_⟩
  · obtain rfl := List.mem_singleton.mp ht
    exact Nat.ne_of_gt h.nonempty
  · rw [List.mem_singleton.mp ht, List.mem_singleton.mp ht']
  · rw [List.mem_singleton.mp ht, List.mem_singleton.mp ht']
  · obtain rfl := List.mem_singleton.mp ht
    obtain ⟨i, hi⟩ := mem_traversal.mp hw
    exact (h.data i w hi).2.2
  · obtain rfl := List.mem_singleton.mp ht
    obtain ⟨i, hi⟩ := mem_traversal.mp hw
    have hlt := lt_size_of_get? hi
    refine ⟨m.allocated + i, ?_, (h.data i w hi).1⟩
    show m.allocated + i < s.allocated
    rw [h.allocated]
    omega

/-- One iteration of `buildFormalParameterTrees`. -/
theorem buildFormalTrees_spec (callee : FuncId) (hfin : (types.reachable f.type).Finite)
    (hempty : f.formalInTree.size = 0) :
    ∃ f' m', (∃ n, ∀ fuel, n ≤ fuel →
        buildFormalTrees types heap callee fuel f m = .ok (f', m')) ∧
      m.Grows m' ∧ f'.arg = f.arg ∧ FormalTrees heap m' f' := by
  obtain ⟨s, _, n, hn⟩ :=
    buildFormalTree_returns types heap callee f.arg hfin m.id m.nodes m.allocated
  have howned : Owned heap f.arg m { s with id := 0 } :=
    buildFormalTree_owned (hn n (Nat.le_refl n))
  obtain ⟨haligned, halloc⟩ := howned.aligned
  have hgrows : m.Grows ⟨0, s.nodes, s.allocated⟩ :=
    ⟨howned.nodes, by
      have := howned.allocated
      show m.allocated ≤ s.allocated
      simp only at this
      omega⟩
  obtain ⟨tree, m', hcopy, hc⟩ := copyTree_spec heap ⟨0, s.nodes, s.allocated⟩
    (f.setTree s.tree .formalIn) (Nat.ne_of_gt howned.nonempty)
    (show TreeType.formalOut.instWTy = .ok .formalOut from rfl)
  obtain ⟨haligned', halloc'⟩ := haligned.snoc halloc (List.mem_singleton_self _) hc
  refine ⟨(f.setTree s.tree .formalIn).setTree tree .formalOut, m', ⟨n, fun fuel hle => ?_⟩,
    hgrows.trans hc.grows, rfl, haligned', halloc'⟩
  rw [buildFormalTrees, if_neg (not_not_intro hempty), hn fuel hle]
  exact hcopy

variable (types heap m) in
theorem buildFormalParameterTrees_spec (callee : FuncId) (fs : List ArgumentWrapper)
    (hfin : ∀ f ∈ fs, (types.reachable f.type).Finite)
    (hempty : ∀ f ∈ fs, f.formalInTree.size = 0) :
    ∃ fs' m', (∃ n, ∀ fuel, n ≤ fuel →
        buildFormalParameterTrees types heap callee fuel fs m = .ok (fs', m')) ∧
      m.Grows m' ∧ fs'.map ArgumentWrapper.arg = fs.map ArgumentWrapper.arg ∧
      ∀ f ∈ fs', FormalTrees heap m' f := by
  induction fs generalizing m with
  | nil => exact ⟨[], m, ⟨0, fun _ _ => rfl⟩, .refl m, rfl, by simp⟩
  | cons f fs ih =>
    obtain ⟨hf, hfs⟩ := List.forall_mem_cons.mp hfin
    obtain ⟨he, hes⟩ := List.forall_mem_cons.mp hempty
    obtain ⟨f', m1, ⟨n1, hn1⟩, hm1, harg, htrees⟩ := buildFormalTrees_spec callee hf he
    obtain ⟨fs', m2, ⟨n2, hn2⟩, hm2, hargs, hall⟩ := ih hfs hes (m := m1)
    refine ⟨f' :: fs', m2, ⟨max n1 n2, fun fuel hle => ?_⟩, hm1.trans hm2, ?_, ?_⟩
    · have h1 := hn1 fuel (Nat.le_trans (Nat.le_max_left ..) hle)
      have h2 := hn2 fuel (Nat.le_trans (Nat.le_max_right ..) hle)
      unfold buildFormalParameterTrees at h2 ⊢
      rw [forEachArg, h1]
      show (forEachArg _ fs m1 >>= _) = _
      rw [h2]
      rfl
    · rw [List.map_cons, List.map_cons, harg, hargs]
    · exact List.forall_mem_cons.mpr ⟨htrees.mono hm2, hall⟩

/-- One iteration of `buildActualParameterTrees`. -/
theorem copyActual_spec (h : FormalTrees heap m f) (a : ArgumentWrapper) :
    ∃ a1 m1 a2 m2, copyTree heap f.formalInTree .actualIn a m = .ok (a1, m1) ∧
      copyTree heap f.formalInTree .actualOut a1 m1 = .ok (a2, m2) ∧ m.Grows m2 ∧
      Aligned m2.nodes (fourTrees f a2) := by
  have hsrc := h.aligned.nonempty _ (List.mem_cons_self ..)
  obtain ⟨tree1, m1, hcopy1, hc1⟩ := copyTree_spec heap m a hsrc
    (show TreeType.actualIn.instWTy = .ok .actualIn from rfl)
  obtain ⟨h1, ha1⟩ := h.aligned.snoc h.allocated (List.mem_cons_self ..) hc1
  obtain ⟨tree2, m2, hcopy2, hc2⟩ := copyTree_spec heap m1 (a.setTree tree1 .actualIn) hsrc
    (show TreeType.actualOut.instWTy = .ok .actualOut from rfl)
  obtain ⟨h2, _⟩ := h1.snoc ha1 (List.mem_cons_self ..) hc2
  exact ⟨_, m1, _, m2, hcopy1, hcopy2, hc1.grows.trans hc2.grows, h2⟩

theorem buildActualParameterTrees_spec {fs as : List ArgumentWrapper}
    (hlen : as.length = fs.length) (h : ∀ f ∈ fs, FormalTrees heap m f) :
    ∃ as' m', buildActualParameterTrees heap as fs m = .ok (as', m') ∧ m.Grows m' ∧
      List.Forall₂ (fun f a => Aligned m'.nodes (fourTrees f a)) fs as' := by
  induction fs generalizing as m with
  | nil =>
    obtain rfl := List.eq_nil_of_length_eq_zero hlen
    exact ⟨[], m, rfl, .refl m, .nil⟩
  | cons f fs ih =>
    cases as with
    | nil => cases hlen
    | cons a as =>
      obtain ⟨hf, hfs⟩ := List.forall_mem_cons.mp h
      obtain ⟨a1, m1, a2, m2, hcopy1, hcopy2, hm2, haligned⟩ := copyActual_spec hf a
      obtain ⟨as', m3, hrest, hm3, hall⟩ := ih (m := m2) (Nat.succ.inj hlen)
        fun g hg => (hfs g hg).mono hm2
      refine ⟨a2 :: as', m3, ?_, hm2.trans hm3, .cons (haligned.mono hm3) hall⟩
      rw [buildActualParameterTrees, hcopy1]
      show (copyTree heap f.formalInTree .actualOut a1 m1 >>= _) = _
      rw [hcopy2]
      show (buildActualParameterTrees heap as fs m2 >>= _) = _
      rw [hrest]
      rfl

end Build

/-! ## The loops over several trees -/

section Links

variable {ctx : LinkContext} {stores loads : List InstId}

theorem linkInsts_ok (instList : List InstId) (type : InstId → TypeId) {w : FieldWrapper}
    (hw : w ∈ ctx.nodes) (link : Links → NodePtr → NodePtr → Links) (pdg : Links) :
    ∃ pdg', linkInsts ctx instList type w link pdg = .ok pdg' := by
  refine foldlM_ok pdg fun pdg1 I _ => ?_
  split
  · refine foldlM_ok pdg1 fun pdg2 nodeIt _ => ?_
    exact ⟨_, by rw [findNode, if_pos hw]; rfl⟩
  · exact ⟨pdg1, rfl⟩

variable (stores loads) in
/-- Two iterators that end together. -/
theorem connectFormalNodes_ok {ins outs : List FieldWrapper} (hlen : ins.length = outs.length)
    (hin : ∀ w ∈ ins, w ∈ ctx.nodes) (hout : ∀ w ∈ outs, w ∈ ctx.nodes) (pdg : Links) :
    ∃ pdg', connectFormalNodes ctx stores loads ins outs pdg = .ok pdg' := by
  induction ins generalizing outs pdg with
  | nil => exact ⟨pdg, rfl⟩
  | cons w ins ih =>
    cases outs with
    | nil => cases hlen
    | cons v outs =>
      obtain ⟨hw, hins⟩ := List.forall_mem_cons.mp hin
      obtain ⟨hv, houts⟩ := List.forall_mem_cons.mp hout
      obtain ⟨pdg1, h1⟩ := linkInsts_ok stores ctx.valueOperandType hw
        addData (pdg.addDependency (.field w) (.field v) DependencyType.parameter.toInt)
      obtain ⟨pdg2, h2⟩ := linkInsts_ok loads ctx.pointeeType hv
        (fun pdg fieldNode nodeIt => addData pdg nodeIt fieldNode) pdg1
      obtain ⟨pdg3, h3⟩ := ih (Nat.succ.inj hlen) hins houts pdg2
      refine ⟨pdg3, ?_⟩
      simp only [connectFormalNodes, findNode, if_pos hw, deref, if_pos hv, next, bind,
        Except.bind, h1, h2, h3]

theorem exists_cons_traversal {t : AppendTree FieldWrapper} (h : t.size ≠ 0) :
    ∃ w ws, t.traversal = w :: ws := by
  obtain ⟨w, hw⟩ := exists_get? (Nat.pos_of_ne_zero h)
  exact List.exists_cons_of_ne_nil (List.ne_nil_of_mem (mem_traversal.mpr ⟨0, hw⟩))

theorem exists_of_mem_left {α β : Type} {R : α → β → Prop} {l : List α} {l' : List β}
    (h : List.Forall₂ R l l') {x : α} (hx : x ∈ l) : ∃ y ∈ l', R x y := by
  induction h with
  | nil => cases hx
  | @cons a b l l' hab _ ih =>
    rcases List.mem_cons.mp hx with rfl | hx
    · exact ⟨b, List.mem_cons_self .., hab⟩
    · obtain ⟨y, hy, hxy⟩ := ih hx
      exact ⟨y, List.mem_cons_of_mem _ hy, hxy⟩

theorem connectRoots_ok {inTree outTree : AppendTree FieldWrapper} (hin : inTree.size ≠ 0)
    (hout : outTree.size ≠ 0) (hinNodes : ∀ w ∈ inTree.traversal, w ∈ ctx.nodes)
    (houtNodes : ∀ w ∈ outTree.traversal, w ∈ ctx.nodes) (node : NodePtr) (pdg : Links) :
    ∃ pdg', connectRoots ctx node inTree outTree pdg = .ok pdg' := by
  obtain ⟨w, ws, hw⟩ := exists_cons_traversal hin
  obtain ⟨v, vs, hv⟩ := exists_cons_traversal hout
  rw [hw] at hinNodes
  rw [hv] at houtNodes
  have hfind : findNode ctx w = .ok (.field w) := if_pos (hinNodes w (List.mem_cons_self ..))
  have hfind' : findNode ctx v = .ok (.field v) := if_pos (houtNodes v (List.mem_cons_self ..))
  unfold connectRoots
  rw [hw, hv, deref, deref]
  exact ⟨_, bind_eq_ok.mpr ⟨w, rfl, bind_eq_ok.mpr ⟨v, rfl, bind_eq_ok.mpr ⟨_, hfind,
    bind_eq_ok.mpr ⟨_, hfind', rfl⟩⟩⟩⟩⟩

/-- Four iterators that end together. -/
theorem connectFourTrees_ok {ai fi fo ao : List FieldWrapper} (hfi : ai.length = fi.length)
    (hfo : ai.length = fo.length) (hao : ai.length = ao.length)
    (h : ∀ w, w ∈ ai ∨ w ∈ fi ∨ w ∈ fo ∨ w ∈ ao → w ∈ ctx.nodes) (pdg : Links) :
    ∃ pdg', connectFourTrees ctx ai fi fo ao pdg = .ok pdg' := by
  induction ai generalizing fi fo ao pdg with
  | nil => exact ⟨pdg, rfl⟩
  | cons w ai ih =>
    cases fi with
    | nil => cases hfi
    | cons x fi =>
      cases fo with
      | nil => cases hfo
      | cons y fo =>
        cases ao with
        | nil => cases hao
        | cons z ao =>
          obtain ⟨pdg', hpdg'⟩ := ih (Nat.succ.inj hfi) (Nat.succ.inj hfo) (Nat.succ.inj hao)
            (fun v hv => h v (hv.imp (List.mem_cons_of_mem _)
              (Or.imp (List.mem_cons_of_mem _) (Or.imp (List.mem_cons_of_mem _)
                (List.mem_cons_of_mem _)))))
            ((pdg.addDependency (.field w) (.field x) DependencyType.parameter.toInt).addDependency
              (.field y) (.field z) DependencyType.parameter.toInt)
          refine ⟨pdg', ?_⟩
          simp only [connectFourTrees, findNode, deref, next, bind, Except.bind,
            if_pos (h w (.inl (List.mem_cons_self ..))),
            if_pos (h x (.inr (.inl (List.mem_cons_self ..)))),
            if_pos (h y (.inr (.inr (.inl (List.mem_cons_self ..))))),
            if_pos (h z (.inr (.inr (.inr (List.mem_cons_self ..))))), hpdg']

theorem Aligned.length_eq {nodes : List FieldWrapper} {trees : List (AppendTree FieldWrapper)}
    (h : Aligned nodes trees) {t t' : AppendTree FieldWrapper} (ht : t ∈ trees)
    (ht' : t' ∈ trees) : t.traversal.length = t'.traversal.length := by
  have := congrArg List.length (h.labels t ht t' ht')
  rwa [List.length_map, List.length_map] at this

theorem connectFunctionAndFormalTrees_ok {fs as : List ArgumentWrapper}
    (h : List.Forall₂ (fun f a => Aligned ctx.nodes (fourTrees f a)) fs as) (entryW : WrapperPtr)
    (pdg : Links) :
    ∃ pdg', connectFunctionAndFormalTrees ctx entryW stores loads fs pdg = .ok pdg' := by
  refine foldlM_ok pdg fun pdg1 f hf => ?_
  obtain ⟨a, _, ha⟩ := exists_of_mem_left h hf
  have hin : f.formalInTree ∈ fourTrees f a := by simp
  have hout : f.formalOutTree ∈ fourTrees f a := by simp
  obtain ⟨pdg2, h2⟩ := connectRoots_ok (ha.nonempty _ hin) (ha.nonempty _ hout)
    (ha.registered _ hin) (ha.registered _ hout) (.inst entryW) pdg1
  obtain ⟨pdg3, h3⟩ := connectFormalNodes_ok stores loads (ha.length_eq hin hout)
    (ha.registered _ hin) (ha.registered _ hout) pdg2
  exact ⟨pdg3, bind_eq_ok.mpr ⟨pdg2, h2, h3⟩⟩

variable (loads) in
theorem connectArguments_ok {fs as : List ArgumentWrapper}
    (h : List.Forall₂ (fun f a => Aligned ctx.nodes (fourTrees f a)) fs as) (pdg : Links) :
    ∃ pdg', connectArguments ctx loads fs as pdg = .ok pdg' := by
  induction h generalizing pdg with
  | nil => exact ⟨pdg, rfl⟩
  | @cons f a fs as ha _ ih =>
    have hfi : f.formalInTree ∈ fourTrees f a := by simp
    have hfo : f.formalOutTree ∈ fourTrees f a := by simp
    have hai : a.actualInTree ∈ fourTrees f a := by simp
    have hao : a.actualOutTree ∈ fourTrees f a := by simp
    obtain ⟨pdg1, h1⟩ := connectFourTrees_ok (ha.length_eq hai hfi)
      (ha.length_eq hai hfo) (ha.length_eq hai hao) (fun w hw => by
        rcases hw with hw | hw | hw | hw
        · exact ha.registered _ hai w hw
        · exact ha.registered _ hfi w hw
        · exact ha.registered _ hfo w hw
        · exact ha.registered _ hao w hw) pdg
    obtain ⟨pdg2, h2⟩ := foldlM_ok (l := a.actualOutTree.traversal)
      (f := fun pdg actual_outW => linkInsts ctx loads ctx.loadType actual_outW addData pdg) pdg1
      fun pdg w hw => linkInsts_ok loads ctx.loadType (ha.registered _ hao w hw) addData pdg
    obtain ⟨pdg3, h3⟩ := ih pdg2
    exact ⟨pdg3, bind_eq_ok.mpr ⟨pdg1, h1, bind_eq_ok.mpr ⟨pdg2, h2, h3⟩⟩⟩

theorem connectCallerAndCalleeTrees_ok {fs as : List ArgumentWrapper}
    (h : List.Forall₂ (fun f a => Aligned ctx.nodes (fourTrees f a)) fs as)
    (InstW : InstructionWrapper) (pdg : Links) :
    ∃ pdg', connectCallerAndCalleeTrees ctx InstW loads fs as pdg = .ok pdg' := by
  obtain ⟨pdg1, h1⟩ := foldlM_ok (l := as) (f := fun pdg argI =>
      connectRoots ctx (.inst (.to InstW)) argI.actualInTree argI.actualOutTree pdg) pdg
    fun pdg a ha => by
      obtain ⟨f, _, hf⟩ := exists_of_mem_left h.flip ha
      have hin : a.actualInTree ∈ fourTrees f a := by simp
      have hout : a.actualOutTree ∈ fourTrees f a := by simp
      exact connectRoots_ok (hf.nonempty _ hin) (hf.nonempty _ hout) (hf.registered _ hin)
        (hf.registered _ hout) (.inst (.to InstW)) pdg
  obtain ⟨pdg2, h2⟩ := connectArguments_ok loads h pdg1
  exact ⟨pdg2, bind_eq_ok.mpr ⟨pdg1, h1, h2⟩⟩

end Links

/-- The formal and actual trees agree. For every callee and every call of it, whatever was built in
between, the four trees of each argument are aligned, and the loops that walk several trees at once
never run past the end of one. -/
theorem parameterTrees_aligned (types : TypeTable) (heap : Heap) (callee : FuncId)
    (args : List (ArgId × TypeId)) (hfin : ∀ arg ∈ args, (types.reachable arg.2).Finite)
    (m : Memory) :
    ∃ formals m1, (∃ n, ∀ fuel, n ≤ fuel →
        buildFormalParameterTrees types heap callee fuel (args.map .new) m = .ok (formals, m1)) ∧
      formals.map ArgumentWrapper.arg = args.map Prod.fst ∧
      ∀ m2, m1.Grows m2 → ∃ actuals m3,
        buildActualParameterTrees heap (args.map .new) formals m2 = .ok (actuals, m3) ∧
        List.Forall₂ (fun f a => Aligned m3.nodes (fourTrees f a)) formals actuals ∧
        ∀ ctx : LinkContext, ctx.nodes = m3.nodes →
          (∀ entryW stores loads pdg, ∃ pdg',
            connectFunctionAndFormalTrees ctx entryW stores loads formals pdg = .ok pdg') ∧
          ∀ InstW callerLoads pdg, ∃ pdg',
            connectCallerAndCalleeTrees ctx InstW callerLoads formals actuals pdg = .ok pdg' := by
  obtain ⟨formals, m1, hrun, _, hargs, hformal⟩ := buildFormalParameterTrees_spec types heap m
    callee (args.map .new)
    (fun f hf => by
      obtain ⟨arg, harg, rfl⟩ := List.mem_map.mp hf
      exact hfin arg harg)
    (fun f hf => by
      obtain ⟨arg, _, rfl⟩ := List.mem_map.mp hf
      rfl)
  have hargs' : formals.map ArgumentWrapper.arg = args.map Prod.fst := by
    rw [hargs, List.map_map]
    rfl
  refine ⟨formals, m1, hrun, hargs', fun m2 hm => ?_⟩
  have hlen : (args.map ArgumentWrapper.new).length = formals.length := by
    have := congrArg List.length hargs
    rw [List.length_map, List.length_map] at this
    exact this.symm
  obtain ⟨actuals, m3, hactual, _, hall⟩ := buildActualParameterTrees_spec hlen
    fun f hf => (hformal f hf).mono hm
  refine ⟨actuals, m3, hactual, hall, fun ctx hctx => ⟨?_, ?_⟩⟩
  · intro entryW stores loads pdg
    exact connectFunctionAndFormalTrees_ok (hctx ▸ hall) entryW pdg
  · intro InstW callerLoads pdg
    exact connectCallerAndCalleeTrees_ok (hctx ▸ hall) InstW pdg

/-- A call with a list and an integer. -/
theorem parameterTrees_aligned_listNode :
    ∃ n formals actuals m1 m3,
      buildFormalParameterTrees listNode ⟨id, fun _ _ h => h⟩ 0 n
        ([(0, 0), (1, 2)].map .new) ⟨0, [], 0⟩ = .ok (formals, m1) ∧
      buildActualParameterTrees ⟨id, fun _ _ h => h⟩ ([(0, 0), (1, 2)].map .new) formals m1 =
        .ok (actuals, m3) ∧
      List.Forall₂ (fun f a => Aligned m3.nodes (fourTrees f a)) formals actuals := by
  have hfin : ∀ arg ∈ [((0 : ArgId), (0 : TypeId)), (1, 2)], (listNode.reachable arg.2).Finite := by
    intro arg harg
    have hall : ∀ arg ∈ [((0 : ArgId), (0 : TypeId)), (1, 2)], arg.2 ≤ 2 := by decide
    exact listNode_finite (hall arg harg)
  obtain ⟨formals, m1, ⟨n, hn⟩, _, hcall⟩ :=
    parameterTrees_aligned listNode ⟨id, fun _ _ h => h⟩ 0 _ hfin ⟨0, [], 0⟩
  obtain ⟨actuals, m3, hactual, hall, _⟩ := hcall m1 (.refl m1)
  exact ⟨n, formals, actuals, m1, m3, hn n (Nat.le_refl n), hactual, hall⟩

end ParameterTree
end DepTaint
