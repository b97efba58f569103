import DepTaint.ProgramDependencies

/-!
# Dependences

What the three graphs say about the module, independent of wrappers and their addresses.

A `Node` is an instruction, the entry of a function or a global variable; `Rep reg a w` says that
`w` is the registered wrapper of `a`. `FuncEdge` lists the PDG links that processing one function
adds, between nodes.

* `Rep.node_unique`: a wrapper stands for one node.
-/

namespace DepTaint

/-- What a registered wrapper stands for. -/
inductive Node where
  | inst (i : InstId)
  | entry (f : FuncId)
  | global (g : GlobalId)
deriving DecidableEq

/-- The function a node belongs to. -/
def Node.func (M : Module) : Node → Option FuncId
  | .inst i => some (M.parent i)
  | .entry f => some f
  | .global _ => none

/-- `w` is the wrapper registered for the node. -/
def Rep (reg : Registry) : Node → InstructionWrapper → Prop
  | .inst i, w => reg.instMap (some i) = some (.to w)
  | .entry f, w => w ∈ reg.funcInstWList f ∧ w.type = .entry
  | .global g, w => w ∈ reg.globalList ∧ w.value = some (.global g)

/-! ## Dependences between instructions -/

/-- The DDG link from `i` to `j` in function `f`: a load depends on the store selected for it, an
instruction on its operands. -/
inductive DDG.Edge (M : Module) (AA : AliasOracle) (f : FuncId) (i j : InstId) : Int → Prop where
  | raw : j ∈ M.insts f → (M.kind j).isLoad = true → DDG.candidateSI M AA f j = some i →
      DDG.Edge M AA f i j DependencyType.dataRaw.toInt
  | defUse : j ∈ M.insts f → .inst i ∈ (M.kind j).operands →
      DDG.Edge M AA f i j DependencyType.dataDefUse.toInt

/-- The terminator `i` controls the instruction `j` in function `f`. -/
def CDG.Controls (M : Module) (T : PostDominatorTree) (f : FuncId) (i j : InstId) : Prop :=
  ∃ A S, CDG.EdgeControls M T f A S j ∧ M.terminator f A = some i

theorem CDG.Controls.mem_insts {M : Module} {T : PostDominatorTree} {f : FuncId} {i j : InstId}
    (h : CDG.Controls M T f i j) : i ∈ M.insts f ∧ j ∈ M.insts f := by
  obtain ⟨A, S, hj, hi⟩ := h
  exact ⟨CDG.mem_insts_of_terminator hi, hj.mem_insts⟩

namespace Module

variable (M : Module)

/-- `g` is listed in the module no later than `f`. -/
def ListedUpTo (g f : FuncId) : Prop := M.functions.idxOf g ≤ M.functions.idxOf f

instance (g f : FuncId) : Decidable (M.ListedUpTo g f) := inferInstanceAs (Decidable (_ ≤ _))

/-- The type of the PDG link for a data dependence of `j` on `i`. -/
def dataType (i j : InstId) : DependencyType :=
  if (M.kind i).isStore = true ∧ (M.kind j).isLoad = true then .dataRaw else .dataDefUse

theorem dataType_ne_call (i j : InstId) :
    (M.dataType i j).toInt ≠ DependencyType.call.toInt := by
  unfold dataType
  split <;> decide

end Module

namespace PDG

/-- The PDG links between registered wrappers that processing `f` adds. -/
inductive FuncEdge (M : Module) (env : Env) (f : FuncId) : Node → Node → Int → Prop where
  | callEntry {i : InstId} {g : FuncId} : i ∈ M.insts f → M.Calls i g → M.ListedUpTo g f →
      FuncEdge M env f (.inst i) (.entry g) DependencyType.dataGeneral.toInt
  | returnCall {i r : InstId} {g : FuncId} {v : Value} : i ∈ M.insts f → M.Calls i g →
      M.ListedUpTo g f → r ∈ M.insts g → M.kind r = .ret (some v) →
      FuncEdge M env f (.inst r) (.inst i) DependencyType.dataGeneral.toInt
  | globalLoad {j : InstId} {g : GlobalId} : j ∈ M.insts f → M.kind j = .load (.global g) →
      g ∈ M.globals → FuncEdge M env f (.global g) (.inst j) InstWrapperType.globalValue.toInt
  | data {i j : InstId} {t : Int} : DDG.Edge M env.AA f i j t → M.earlyExit i = false →
      FuncEdge M env f (.inst i) (.inst j) (M.dataType i j).toInt
  | control {i j : InstId} : CDG.Controls M (env.PDT f) f i j →
      FuncEdge M env f (.inst i) (.inst j) DependencyType.control.toInt
  | entryControl {j : InstId} : CDG.EntryControls M (env.PDT f) f j →
      FuncEdge M env f (.entry f) (.inst j) DependencyType.control.toInt

/-- The links that processing `f` adds, on wrappers. A call of a function that is listed later gets
what the callee's `entryW` held before it was set. -/
inductive FuncLink (M : Module) (env : Env) (reg : Registry) (f : FuncId) :
    WrapperPtr → WrapperPtr → Int → Prop where
  | edge {a b : Node} {w w' : InstructionWrapper} {t : Int} : FuncEdge M env f a b t →
      Rep reg a w → Rep reg b w' → FuncLink M env reg f (.to w) (.to w') t
  | late {i : InstId} {g : FuncId} {w : InstructionWrapper} : i ∈ M.insts f → M.Calls i g →
      ¬ M.ListedUpTo g f → Rep reg (.inst i) w →
      FuncLink M env reg f (.to w) env.garbage DependencyType.dataGeneral.toInt

end PDG

/-! ## Wrappers and nodes -/

section Rep

variable {heap : Heap} {M : Module} {reg reg' : Registry} {a b : Node} {w : InstructionWrapper}

theorem Rep.isInst (h : reg.Inv heap M) {i : InstId} (hw : Rep reg (.inst i) w) : IsInst M i w :=
  h.isInst hw

theorem Rep.isEntry (h : reg.Inv heap M) {f : FuncId} (hw : Rep reg (.entry f) w) :
    IsEntry f w := by
  obtain ⟨_, ⟨i, hi, _⟩ | he⟩ := h.list_mem f w hw.1
  · have ht := (h.isInst hi).type
    rw [hw.2] at ht
    cases ht
  · exact he

theorem Rep.isGlobal (h : reg.Inv heap M) {g : GlobalId} (hw : Rep reg (.global g) w) :
    IsGlobal g w := by
  obtain ⟨_, g', hg⟩ := h.global_mem w hw.1
  have hv := hg.value
  rw [hw.2] at hv
  cases hv
  exact hg

theorem Rep.func (h : reg.Inv heap M) (hw : Rep reg a w) : w.func = a.func M := by
  cases a with
  | inst i => exact (hw.isInst h).func
  | entry f => exact (hw.isEntry h).func
  | global g => exact (hw.isGlobal h).func

theorem Rep.mem_nodes (h : reg.Inv heap M) (hw : Rep reg a w) : w ∈ reg.nodes := by
  cases a with
  | inst i => exact h.mem_nodes hw
  | entry f => exact (h.list_mem f w hw.1).1
  | global g => exact (h.global_mem w hw.1).1

/-- A wrapper stands for one node. -/
theorem Rep.node_unique (h : reg.Inv heap M) (ha : Rep reg a w) (hb : Rep reg b w) : a = b := by
  cases a with
  | inst i =>
    have hi := ha.isInst h
    cases b with
    | inst j =>
      have hj := (hb.isInst h).inst
      rw [hi.inst] at hj
      cases hj
      rfl
    | entry f => cases hi.type.symm.trans (hb.isEntry h).type
    | global g => cases hi.type.symm.trans (hb.isGlobal h).type
  | entry f =>
    have hf := ha.isEntry h
    cases b with
    | inst j => cases hf.type.symm.trans (hb.isInst h).type
    | entry f' =>
      have hf' := (hb.isEntry h).func
      rw [hf.func] at hf'
      cases hf'
      rfl
    | global g => cases hf.type.symm.trans (hb.isGlobal h).type
  | global g =>
    have hg := ha.isGlobal h
    cases b with
    | inst j => cases hg.type.symm.trans (hb.isInst h).type
    | entry f' => cases hg.type.symm.trans (hb.isEntry h).type
    | global g' =>
      have hg' := (hb.isGlobal h).value
      rw [hg.value] at hg'
      cases hg'
      rfl

/-- Every registered wrapper stands for a node. -/
theorem exists_rep (h : reg.Inv heap M) (hw : w ∈ reg.nodes) : ∃ a, Rep reg a w := by
  rcases h.nodes_mem w hw with hg | ⟨f, hf⟩
  · obtain ⟨_, g, hg'⟩ := h.global_mem w hg
    exact ⟨.global g, hg, hg'.value⟩
  · obtain ⟨_, ⟨i, hi, _⟩ | he⟩ := h.list_mem f w hf
    · exact ⟨.inst i, hi⟩
    · exact ⟨.entry f, hf, he.type⟩

/-- An instruction's wrapper is the only registered wrapper that carries it. -/
theorem rep_of_inst (h : reg.Inv heap M) (hw : w ∈ reg.nodes) {i : InstId} (hi : w.inst = some i) :
    Rep reg (.inst i) w := by
  obtain ⟨a, ha⟩ := exists_rep h hw
  cases a with
  | inst j =>
    have hj := (ha.isInst h).inst
    rw [hi] at hj
    cases hj
    exact ha
  | entry f =>
    rw [(ha.isEntry h).inst] at hi
    cases hi
  | global g =>
    rw [(ha.isGlobal h).inst] at hi
    cases hi

/-- An instruction has one wrapper. -/
theorem Rep.inst_unique {i : InstId} {w' : InstructionWrapper} (hw : Rep reg (.inst i) w)
    (hw' : Rep reg (.inst i) w') : w = w' := by
  cases (show reg.instMap (some i) = some (.to w) from hw).symm.trans hw'
  rfl

theorem Rep.mem_list (h : reg.Inv heap M) {i : InstId} (hw : Rep reg (.inst i) w) :
    M.HasInst (M.parent i) i ∧ w ∈ reg.funcInstWList (M.parent i) := by
  obtain ⟨hi, w', he, _, hl⟩ := h.instMap_inst i _ hw
  cases he
  exact ⟨hi, hl⟩

end Rep

end DepTaint
