import Mathlib.Logic.Function.Basic
import DepTaint.Base.Containers
import DepTaint.Base.Fold
import DepTaint.IR

/-!
# Wrapper

`InstructionWrapper` and its static registries (`DependencyGraph.h`).

A wrapper carries the address `operator new` gave it. The registries `nodes`, `globalList` and
`funcInstWList[F]` are sets of pointers, so they are iterated in address order. `Heap` is the sequence
of addresses handed out. The objects of the IR have no address here: the sets and maps keyed by them
(`allocaMap`, `senFuncSet`, `taintMap`) are gone over in the order of their ids.

* `Registry.Inv`: what every registry reached by the passes satisfies.
* `Registry.Grows`: registries only grow while a module is processed.
-/

namespace DepTaint

/-- `InstWrapperType`. -/
inductive InstWrapperType where
  | inst
  | formalIn
  | formalOut
  | actualIn
  | actualOut
  | return
  | pointerRW
  | parameterField
  | entry
  | globalValue
deriving DecidableEq

/-- The `int` of `GLOBAL_VALUE`; it is also passed as the type of a link. -/
def InstWrapperType.toInt : InstWrapperType → Int
  | .inst => 0
  | .formalIn => 1
  | .formalOut => 2
  | .actualIn => 3
  | .actualOut => 4
  | .return => 5
  | .pointerRW => 6
  | .parameterField => 7
  | .entry => 8
  | .globalValue => 9

structure InstructionWrapper where
  addr : Nat
  inst : Option InstId
  func : Option FuncId
  value : Option Value
  type : InstWrapperType
deriving DecidableEq

/-- An `InstructionWrapper*`: null, an indeterminate pointer to no wrapper, or a wrapper. -/
inductive WrapperPtr where
  | null
  | wild
  | to (w : InstructionWrapper)
deriving DecidableEq

/-- The addresses `operator new` returns for wrappers, in order of allocation. -/
structure Heap where
  addr : Nat → Nat
  addr_injective : Function.Injective addr

structure Registry where
  nodes : List InstructionWrapper
  globalList : List InstructionWrapper
  instMap : Option InstId → Option WrapperPtr
  funcInstWList : FuncId → List InstructionWrapper
  /-- How many wrappers have been allocated. -/
  allocated : Nat

namespace Registry

def empty : Registry := ⟨[], [], fun _ => none, fun _ => [], 0⟩

def insertNode (w : InstructionWrapper) (s : List InstructionWrapper) : List InstructionWrapper :=
  setInsert InstructionWrapper.addr w s

/-- The value of `instMap[k]`. -/
def instMapAt (reg : Registry) (k : Option InstId) : WrapperPtr := (reg.instMap k).getD .null

/-- The registry after `instMap[k]`: a miss inserts a null pointer under `k`. -/
def touch (reg : Registry) (k : Option InstId) : Registry :=
  match reg.instMap k with
  | some _ => reg
  | none => { reg with instMap := Function.update reg.instMap k (some .null) }

/-- `new InstructionWrapper(I, F, INST)`. -/
def instWrapper (heap : Heap) (reg : Registry) (f : FuncId) (i : InstId) : InstructionWrapper :=
  { addr := heap.addr reg.allocated, inst := some i, func := some f, value := some (.inst i),
    type := .inst }

/-- `new InstructionWrapper(F, ENTRY)`. -/
def entryWrapper (heap : Heap) (reg : Registry) (f : FuncId) : InstructionWrapper :=
  { addr := heap.addr reg.allocated, inst := none, func := some f, value := none, type := .entry }

/-- `new InstructionWrapper(nullptr, nullptr, G, GLOBAL_VALUE)`. -/
def globalWrapper (heap : Heap) (reg : Registry) (g : GlobalId) : InstructionWrapper :=
  { addr := heap.addr reg.allocated, inst := none, func := none, value := some (.global g),
    type := .globalValue }

/-- Register a freshly allocated INST wrapper of `i`. -/
def insertInst (reg : Registry) (f : FuncId) (i : InstId) (iw : InstructionWrapper) : Registry :=
  { reg with
    nodes := insertNode iw reg.nodes
    instMap := Function.update reg.instMap (some i) (some (.to iw))
    funcInstWList := Function.update reg.funcInstWList f (insertNode iw (reg.funcInstWList f))
    allocated := reg.allocated + 1 }

/-- The body of the loop of `constructInstMap`: an instruction not in `instMap` yet is inserted. -/
def constructInst (heap : Heap) (f : FuncId) (reg : Registry) (i : InstId) : Registry :=
  match reg.instMap (some i) with
  | some _ => reg
  | none => reg.insertInst f i (instWrapper heap reg f i)

/-- `InstructionWrapper::constructInstMap(F)`. -/
def constructInstMap (heap : Heap) (M : Module) (f : FuncId) (reg : Registry) : Registry :=
  (M.insts f).foldl (constructInst heap f) reg

/-- Register a freshly allocated ENTRY wrapper of `f`. -/
def insertEntry (reg : Registry) (f : FuncId) (root : InstructionWrapper) : Registry :=
  { reg with
    nodes := insertNode root reg.nodes
    funcInstWList :=
      Function.update reg.funcInstWList f (insertNode root (reg.funcInstWList f))
    allocated := reg.allocated + 1 }

/-- Register a freshly allocated GLOBAL_VALUE wrapper. -/
def insertGlobal (reg : Registry) (globalW : InstructionWrapper) : Registry :=
  { reg with
    nodes := insertNode globalW reg.nodes
    globalList := insertNode globalW reg.globalList
    allocated := reg.allocated + 1 }

end Registry

/-! ## The registry invariant -/

/-- `w` was built by the INST constructor for `i`. -/
structure IsInst (M : Module) (i : InstId) (w : InstructionWrapper) : Prop where
  inst : w.inst = some i
  func : w.func = some (M.parent i)
  value : w.value = some (.inst i)
  type : w.type = .inst

/-- `w` was built by the ENTRY constructor for `f`. -/
structure IsEntry (f : FuncId) (w : InstructionWrapper) : Prop where
  inst : w.inst = none
  func : w.func = some f
  value : w.value = none
  type : w.type = .entry

/-- `w` was built by the GLOBAL_VALUE constructor for `g`. -/
structure IsGlobal (g : GlobalId) (w : InstructionWrapper) : Prop where
  inst : w.inst = none
  func : w.func = none
  value : w.value = some (.global g)
  type : w.type = .globalValue

namespace Registry

/-- What every registry reached by the passes satisfies. -/
structure Inv (heap : Heap) (M : Module) (reg : Registry) : Prop where
  addr_lt : ∀ w ∈ reg.nodes, ∃ k < reg.allocated, w.addr = heap.addr k
  nodes_nodup : reg.nodes.Nodup
  list_nodup : ∀ f, (reg.funcInstWList f).Nodup
  instMap_inst : ∀ i p, reg.instMap (some i) = some p →
    M.HasInst (M.parent i) i ∧ ∃ w, p = .to w ∧ IsInst M i w ∧ w ∈ reg.funcInstWList (M.parent i)
  instMap_null : ∀ p, reg.instMap none = some p → p = .null
  list_mem : ∀ f, ∀ w ∈ reg.funcInstWList f, w ∈ reg.nodes ∧
    ((∃ i, reg.instMap (some i) = some (.to w) ∧ M.parent i = f) ∨ IsEntry f w)
  global_mem : ∀ w ∈ reg.globalList, w ∈ reg.nodes ∧ ∃ g, IsGlobal g w
  nodes_mem : ∀ w ∈ reg.nodes, w ∈ reg.globalList ∨ ∃ f, w ∈ reg.funcInstWList f

/-- `reg'` arises from `reg` by registering wrappers of function `f` only. -/
structure Grows (M : Module) (f : FuncId) (reg reg' : Registry) : Prop where
  instMap_mono : ∀ i p, reg.instMap (some i) = some p → reg'.instMap (some i) = some p
  instMap_frame : ∀ i, i ∉ M.insts f → reg'.instMap (some i) = reg.instMap (some i)
  nodes_mono : ∀ w ∈ reg.nodes, w ∈ reg'.nodes
  list_mono : ∀ g, ∀ w ∈ reg.funcInstWList g, w ∈ reg'.funcInstWList g
  list_frame : ∀ g, g ≠ f → reg'.funcInstWList g = reg.funcInstWList g
  global_eq : reg'.globalList = reg.globalList
  allocated_le : reg.allocated ≤ reg'.allocated

/-- Every instruction of `f` has its wrapper. -/
def Registered (M : Module) (reg : Registry) (f : FuncId) : Prop :=
  ∀ i ∈ M.insts f, ∃ w, reg.instMap (some i) = some (.to w)

theorem Grows.refl (M : Module) (f : FuncId) (reg : Registry) : Grows M f reg reg :=
  ⟨fun _ _ h => h, fun _ _ => rfl, fun _ h => h, fun _ _ h => h, fun _ _ => rfl, rfl, Nat.le_refl _⟩

theorem Grows.trans {M : Module} {f : FuncId} {r1 r2 r3 : Registry} (h1 : Grows M f r1 r2)
    (h2 : Grows M f r2 r3) : Grows M f r1 r3 where
  instMap_mono i p h := h2.instMap_mono i p (h1.instMap_mono i p h)
  instMap_frame i h := (h2.instMap_frame i h).trans (h1.instMap_frame i h)
  nodes_mono w h := h2.nodes_mono w (h1.nodes_mono w h)
  list_mono g w h := h2.list_mono g w (h1.list_mono g w h)
  list_frame g h := (h2.list_frame g h).trans (h1.list_frame g h)
  global_eq := h2.global_eq.trans h1.global_eq
  allocated_le := h1.allocated_le.trans h2.allocated_le

theorem Grows.registered {M : Module} {f g : FuncId} {reg reg' : Registry}
    (h : Grows M f reg reg') (hr : Registered M reg g) : Registered M reg' g := by
  intro i hi
  obtain ⟨w, hw⟩ := hr i hi
  exact ⟨w, h.instMap_mono i _ hw⟩

variable {heap : Heap} {M : Module} {reg : Registry} {f : FuncId}

theorem inv_empty : Inv heap M empty := by
  constructor <;> simp [empty]

/-- A fresh address belongs to no registered wrapper. -/
theorem Inv.fresh (h : Inv heap M reg) {w : InstructionWrapper}
    (hw : w.addr = heap.addr reg.allocated) : w ∉ reg.nodes := by
  intro hmem
  obtain ⟨k, hk, hka⟩ := h.addr_lt w hmem
  have := heap.addr_injective (hw.symm.trans hka)
  omega

theorem touch_of_some {k : Option InstId} {p : WrapperPtr} (h : reg.instMap k = some p) :
    reg.touch k = reg := by
  simp [touch, h]

/-- A null pointer inserted on a miss reads like the miss. -/
@[simp] theorem instMapAt_touch (k k' : Option InstId) :
    (reg.touch k).instMapAt k' = reg.instMapAt k' := by
  unfold touch
  split
  · rfl
  · rename_i hn
    by_cases hk : k' = k
    · subst hk
      simp [instMapAt, hn]
    · simp [instMapAt, hk]

theorem Inv.instMapAt_none (h : Inv heap M reg) : reg.instMapAt none = .null := by
  unfold instMapAt
  cases hn : reg.instMap none with
  | none => rfl
  | some p => exact h.instMap_null p hn

/-- Looking up the null key or a registered instruction registers no wrapper. -/
theorem Inv.touch (h : Inv heap M reg) {k : Option InstId}
    (hk : ∀ i, k = some i → ∃ w, reg.instMap (some i) = some (.to w)) :
    Inv heap M (reg.touch k) ∧ Grows M f reg (reg.touch k) := by
  cases k with
  | some i =>
    obtain ⟨w, hw⟩ := hk i rfl
    rw [touch_of_some hw]
    exact ⟨h, .refl M f reg⟩
  | none =>
    unfold Registry.touch
    split
    · exact ⟨h, .refl M f reg⟩
    · refine ⟨?_, fun i p hp => by simpa using hp, fun i _ => by simp, fun _ h => h,
        fun _ _ h => h, fun _ _ => rfl, rfl, Nat.le_refl _⟩
      exact
        { addr_lt := h.addr_lt
          nodes_nodup := h.nodes_nodup
          list_nodup := h.list_nodup
          instMap_inst := fun i p hp => h.instMap_inst i p (by simpa using hp)
          instMap_null := fun p hp => by
            simp only [Function.update_self, Option.some.injEq] at hp
            exact hp.symm
          list_mem := fun g w hw => by simpa using h.list_mem g w hw
          global_mem := h.global_mem
          nodes_mem := h.nodes_mem }

theorem mem_insertNode {w x : InstructionWrapper} {s : List InstructionWrapper} :
    w ∈ insertNode x s ↔ w = x ∨ w ∈ s := mem_setInsert

theorem mem_update_list {g : FuncId} {w x : InstructionWrapper} :
    w ∈ Function.update reg.funcInstWList f (insertNode x (reg.funcInstWList f)) g ↔
      (g = f ∧ w = x) ∨ w ∈ reg.funcInstWList g := by
  by_cases hg : g = f
  · subst hg
    simp [mem_insertNode]
  · simp [hg]

theorem nodup_update_list {x : InstructionWrapper} (h : ∀ g, (reg.funcInstWList g).Nodup) (g : FuncId) :
    (Function.update reg.funcInstWList f (insertNode x (reg.funcInstWList f)) g).Nodup := by
  by_cases hg : g = f
  · subst hg
    rw [Function.update_self]
    exact nodup_setInsert (h g)
  · rw [Function.update_of_ne hg]
    exact h g

/-- A new wrapper lies at the next address. -/
theorem Inv.addr_lt_insertNode (h : Inv heap M reg) {x : InstructionWrapper}
    (hx : x.addr = heap.addr reg.allocated) :
    ∀ w ∈ insertNode x reg.nodes, ∃ k < reg.allocated + 1, w.addr = heap.addr k := by
  intro w hw
  rcases mem_insertNode.mp hw with rfl | hw
  · exact ⟨reg.allocated, Nat.lt_succ_self _, hx⟩
  · obtain ⟨k, hk, hka⟩ := h.addr_lt w hw
    exact ⟨k, Nat.lt_succ_of_lt hk, hka⟩

/-- A wrapper that enters `nodes` and the list of `f`. -/
theorem Inv.nodes_mem_insertNode (h : Inv heap M reg) {x : InstructionWrapper} :
    ∀ w ∈ insertNode x reg.nodes, w ∈ reg.globalList ∨
      ∃ g, w ∈ Function.update reg.funcInstWList f (insertNode x (reg.funcInstWList f)) g := by
  intro w hw
  rcases mem_insertNode.mp hw with rfl | hw
  · exact .inr ⟨f, mem_update_list.mpr (.inl ⟨rfl, rfl⟩)⟩
  · rcases h.nodes_mem w hw with hg | ⟨g, hg⟩
    · exact .inl hg
    · exact .inr ⟨g, mem_update_list.mpr (.inr hg)⟩

theorem insertInst_instMap {i j : InstId} {iw : InstructionWrapper} :
    (reg.insertInst f i iw).instMap (some j) =
      if j = i then some (.to iw) else reg.instMap (some j) := by
  simp [insertInst, Function.update_apply]

theorem grows_insertInst {i : InstId} {iw : InstructionWrapper} (hi : i ∈ M.insts f)
    (hn : reg.instMap (some i) = none) : Grows M f reg (reg.insertInst f i iw) where
  instMap_mono := by
    intro j p hp
    rw [insertInst_instMap, if_neg, hp]
    rintro rfl
    rw [hn] at hp
    cases hp
  instMap_frame := by
    intro j hj
    rw [insertInst_instMap, if_neg]
    rintro rfl
    exact hj hi
  nodes_mono _ hw := mem_insertNode.mpr (.inr hw)
  list_mono _ _ hw := mem_update_list.mpr (.inr hw)
  list_frame _ hg := Function.update_of_ne hg _ _
  global_eq := rfl
  allocated_le := Nat.le_succ _

theorem Inv.insertInst (h : Inv heap M reg) {i : InstId} (hf : f ∈ M.functions)
    (hi : i ∈ M.insts f) (hn : reg.instMap (some i) = none) :
    Inv heap M (reg.insertInst f i (instWrapper heap reg f i)) := by
  have hp : M.parent i = f := Module.HasInst.parent ⟨hf, hi⟩
  have hgrow : Grows M f reg (reg.insertInst f i (instWrapper heap reg f i)) :=
    grows_insertInst hi hn
  have hiw : IsInst M i (instWrapper heap reg f i) := ⟨rfl, by simp [instWrapper, hp], rfl, rfl⟩
  exact
    { addr_lt := h.addr_lt_insertNode rfl
      nodes_nodup := nodup_setInsert h.nodes_nodup
      list_nodup := nodup_update_list h.list_nodup
      instMap_inst := by
        intro j p hjp
        rw [insertInst_instMap] at hjp
        split at hjp
        · rename_i hj
          subst hj
          cases hjp
          exact ⟨by rw [hp]; exact ⟨hf, hi⟩, _, rfl, hiw, mem_update_list.mpr (.inl ⟨hp, rfl⟩)⟩
        · obtain ⟨hmem, w, rfl, hw, hlist⟩ := h.instMap_inst j p hjp
          exact ⟨hmem, w, rfl, hw, mem_update_list.mpr (.inr hlist)⟩
      instMap_null := fun p hnp => h.instMap_null p (by simpa [Registry.insertInst] using hnp)
      list_mem := by
        intro g w hw
        rcases mem_update_list.mp hw with ⟨rfl, rfl⟩ | hw
        · refine ⟨mem_insertNode.mpr (.inl rfl), .inl ⟨i, ?_, hp⟩⟩
          rw [insertInst_instMap, if_pos rfl]
        · obtain ⟨hnode, hcase⟩ := h.list_mem g w hw
          refine ⟨mem_insertNode.mpr (.inr hnode), hcase.imp_left ?_⟩
          rintro ⟨j, hj, hjg⟩
          exact ⟨j, hgrow.instMap_mono j _ hj, hjg⟩
      global_mem := fun w hw => ⟨mem_insertNode.mpr (.inr (h.global_mem w hw).1),
        (h.global_mem w hw).2⟩
      nodes_mem := h.nodes_mem_insertNode }

/-- One iteration of `constructInstMap`. -/
theorem constructInst_spec (h : Inv heap M reg) {i : InstId} (hf : f ∈ M.functions)
    (hi : i ∈ M.insts f) :
    Inv heap M (constructInst heap f reg i) ∧ Grows M f reg (constructInst heap f reg i) ∧
      ((constructInst heap f reg i).instMap (some i)).isSome := by
  unfold constructInst
  split
  · rename_i hs
    exact ⟨h, .refl M f reg, by rw [hs]; rfl⟩
  · rename_i hn
    exact ⟨h.insertInst hf hi hn, grows_insertInst hi hn, by rw [insertInst_instMap, if_pos rfl]; rfl⟩

/-- `constructInstMap(F)` registers every instruction of `F` and keeps everything else. -/
theorem constructInstMap_spec (h : Inv heap M reg) (hf : f ∈ M.functions) :
    Inv heap M (constructInstMap heap M f reg) ∧
      Grows M f reg (constructInstMap heap M f reg) ∧
      Registered M (constructInstMap heap M f reg) f := by
  have key : Inv heap M (constructInstMap heap M f reg) ∧
      Grows M f reg (constructInstMap heap M f reg) ∧
      ∀ i ∈ M.insts f, ((constructInstMap heap M f reg).instMap (some i)).isSome := by
    refine foldl_invariant (P := fun pre r => Inv heap M r ∧ Grows M f reg r ∧
      ∀ i ∈ pre, (r.instMap (some i)).isSome) ⟨h, .refl M f reg, by simp⟩ ?_
    rintro pre i post r hx ⟨hinv, hgrow, hpre⟩
    have hi : i ∈ M.insts f := by simp [hx]
    obtain ⟨hinv', hstep, hsome⟩ := constructInst_spec hinv hf hi
    refine ⟨hinv', hgrow.trans hstep, fun j hj => ?_⟩
    rcases List.mem_append.mp hj with hj | hj
    · obtain ⟨p, hp⟩ := Option.isSome_iff_exists.mp (hpre j hj)
      rw [hstep.instMap_mono j p hp]
      rfl
    · rw [List.mem_singleton.mp hj]
      exact hsome
  refine ⟨key.1, key.2.1, fun i hi => ?_⟩
  obtain ⟨p, hp⟩ := Option.isSome_iff_exists.mp (key.2.2 i hi)
  obtain ⟨_, w, rfl, _⟩ := key.1.instMap_inst i p hp
  exact ⟨w, hp⟩

theorem grows_insertEntry {root : InstructionWrapper} : Grows M f reg (reg.insertEntry f root) :=
  ⟨fun _ _ h => h, fun _ _ => rfl, fun _ h => mem_insertNode.mpr (.inr h),
    fun _ _ h => mem_update_list.mpr (.inr h), fun _ hg => Function.update_of_ne hg _ _, rfl,
    Nat.le_succ _⟩

theorem Inv.insertEntry (h : Inv heap M reg) :
    Inv heap M (reg.insertEntry f (entryWrapper heap reg f)) where
  addr_lt := h.addr_lt_insertNode rfl
  nodes_nodup := nodup_setInsert h.nodes_nodup
  list_nodup := nodup_update_list h.list_nodup
  instMap_inst := by
    intro i p hp
    obtain ⟨hmem, w, rfl, hw, hlist⟩ := h.instMap_inst i p hp
    exact ⟨hmem, w, rfl, hw, mem_update_list.mpr (.inr hlist)⟩
  instMap_null := h.instMap_null
  list_mem := by
    intro g w hw
    rcases mem_update_list.mp hw with ⟨rfl, rfl⟩ | hw
    · exact ⟨mem_insertNode.mpr (.inl rfl), .inr ⟨rfl, rfl, rfl, rfl⟩⟩
    · exact ⟨mem_insertNode.mpr (.inr (h.list_mem g w hw).1), (h.list_mem g w hw).2⟩
  global_mem := fun w hw => ⟨mem_insertNode.mpr (.inr (h.global_mem w hw).1), (h.global_mem w hw).2⟩
  nodes_mem := h.nodes_mem_insertNode

theorem Inv.insertGlobal (h : Inv heap M reg) (g : GlobalId) :
    Inv heap M (reg.insertGlobal (globalWrapper heap reg g)) where
  addr_lt := h.addr_lt_insertNode rfl
  nodes_nodup := nodup_setInsert h.nodes_nodup
  list_nodup := h.list_nodup
  instMap_inst := h.instMap_inst
  instMap_null := h.instMap_null
  list_mem := fun f w hw => ⟨mem_insertNode.mpr (.inr (h.list_mem f w hw).1), (h.list_mem f w hw).2⟩
  global_mem := by
    intro w hw
    rcases mem_insertNode.mp hw with rfl | hw
    · exact ⟨mem_insertNode.mpr (.inl rfl), g, ⟨rfl, rfl, rfl, rfl⟩⟩
    · exact ⟨mem_insertNode.mpr (.inr (h.global_mem w hw).1), (h.global_mem w hw).2⟩
  nodes_mem := by
    intro w hw
    rcases mem_insertNode.mp hw with rfl | hw
    · exact .inl (mem_insertNode.mpr (.inl rfl))
    · rcases h.nodes_mem w hw with hg | hf
      · exact .inl (mem_insertNode.mpr (.inr hg))
      · exact .inr hf

/-- The wrapper of an instruction is registered. -/
theorem Inv.mem_nodes (h : Inv heap M reg) {i : InstId} {w : InstructionWrapper}
    (hw : reg.instMap (some i) = some (.to w)) : w ∈ reg.nodes := by
  obtain ⟨_, w', he, _, hl⟩ := h.instMap_inst i _ hw
  cases he
  exact (h.list_mem _ w hl).1

theorem Inv.isInst (h : Inv heap M reg) {i : InstId} {w : InstructionWrapper}
    (hw : reg.instMap (some i) = some (.to w)) : IsInst M i w := by
  obtain ⟨_, w', he, hi, _⟩ := h.instMap_inst i _ hw
  cases he
  exact hi

/-! ## Passes that only look wrappers up -/

theorem touch_lists (reg : Registry) (k : Option InstId) :
    (reg.touch k).nodes = reg.nodes ∧ (reg.touch k).globalList = reg.globalList ∧
      (reg.touch k).funcInstWList = reg.funcInstWList := by
  unfold touch
  split <;> exact ⟨rfl, rfl, rfl⟩

/-- `constructInstMap(F)` on a function whose instructions are registered does nothing. -/
theorem constructInstMap_of_registered (h : Registered M reg f) :
    constructInstMap heap M f reg = reg := by
  refine foldl_preserves (P := fun r => r = reg) rfl ?_
  rintro _ i hi rfl
  obtain ⟨w, hw⟩ := h i hi
  simp [constructInst, hw]

/-- `constructInstMap(F)` adds wrappers of type INST only. -/
theorem constructInstMap_list {g : FuncId} {w : InstructionWrapper}
    (h : w ∈ (constructInstMap heap M f reg).funcInstWList g) :
    w ∈ reg.funcInstWList g ∨ w.type = .inst := by
  revert h
  refine foldl_preserves (P := fun r : Registry => w ∈ r.funcInstWList g →
    w ∈ reg.funcInstWList g ∨ w.type = .inst) Or.inl ?_
  intro r i _ hr h
  unfold constructInst at h
  split at h
  · exact hr h
  · rcases mem_update_list.mp h with ⟨_, rfl⟩ | h
    · exact .inr rfl
    · exact hr h

/-- A lookup removes no entry. -/
theorem touch_mono {k k' : Option InstId} {p : WrapperPtr} (h : reg.instMap k' = some p) :
    (reg.touch k).instMap k' = some p := by
  unfold touch
  split
  · exact h
  · rename_i hn
    have hne : k' ≠ k := by
      rintro rfl
      rw [hn] at h
      cases h
    simpa [hne] using h

theorem isSome_touch_of {k k' : Option InstId} (h : (reg.instMap k').isSome) :
    ((reg.touch k).instMap k').isSome := by
  obtain ⟨p, hp⟩ := Option.isSome_iff_exists.mp h
  rw [touch_mono hp]
  rfl

/-- After a lookup its key is there. -/
theorem isSome_touch (reg : Registry) (k : Option InstId) : ((reg.touch k).instMap k).isSome := by
  unfold touch
  split
  · rename_i p hp
    rw [hp]
    rfl
  · simp

theorem constructInstMap_mono {k : Option InstId} {p : WrapperPtr} (h : reg.instMap k = some p) :
    (constructInstMap heap M f reg).instMap k = some p := by
  refine foldl_preserves (P := fun r : Registry => r.instMap k = some p) h ?_
  intro r i _ hr
  unfold constructInst
  split
  · exact hr
  · rename_i hn
    have hne : k ≠ some i := by
      rintro rfl
      rw [hn] at hr
      cases hr
    simpa [insertInst, hne] using hr

theorem constructInstMap_none :
    (constructInstMap heap M f reg).instMap none = reg.instMap none := by
  refine foldl_preserves (P := fun r : Registry => r.instMap none = reg.instMap none) rfl ?_
  intro r i _ hr
  unfold constructInst
  split
  · exact hr
  · simpa [insertInst] using hr

/-- While a pass runs on `f`, the registry holds the wrappers of `R`; only null pointers have been
inserted into `instMap`. -/
structure Sees (heap : Heap) (M : Module) (f : FuncId) (R reg : Registry) : Prop where
  inv : reg.Inv heap M
  grows : Grows M f R reg
  instMapAt : ∀ k, reg.instMapAt k = R.instMapAt k
  nodes : reg.nodes = R.nodes
  globalList : reg.globalList = R.globalList
  funcInstWList : reg.funcInstWList = R.funcInstWList

theorem Sees.refl (h : Inv heap M reg) : Sees heap M f reg reg :=
  ⟨h, .refl .., fun _ => rfl, rfl, rfl, rfl⟩

theorem Sees.touch {R : Registry} (h : Sees heap M f R reg) (hR : Registered M R f)
    {k : Option InstId} (hk : ∀ i, k = some i → i ∈ M.insts f) : Sees heap M f R (reg.touch k) := by
  have hstep := h.inv.touch (f := f) (k := k) fun i hi => h.grows.registered hR i (hk i hi)
  obtain ⟨hn, hg, hl⟩ := reg.touch_lists k
  exact ⟨hstep.1, h.grows.trans hstep.2, fun k' => by rw [instMapAt_touch, h.instMapAt],
    hn.trans h.nodes, hg.trans h.globalList, hl.trans h.funcInstWList⟩

theorem instMapAt_eq_to {k : Option InstId} {w : InstructionWrapper} :
    reg.instMapAt k = .to w ↔ reg.instMap k = some (.to w) := by
  unfold instMapAt
  cases reg.instMap k <;> simp

theorem Sees.instMap {R : Registry} (h : Sees heap M f R reg) {i : InstId} {w : InstructionWrapper} :
    reg.instMap (some i) = some (.to w) ↔ R.instMap (some i) = some (.to w) := by
  rw [← instMapAt_eq_to, h.instMapAt, instMapAt_eq_to]

end Registry

end DepTaint
