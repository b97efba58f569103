import DepTaint.Propagation

/-!
# PropagationStep

What one visit of the worklist loop can do. Everything later modules prove about the loop they
derive from here.

* `Enqueued`: the effect of enqueuing an adjacent wrapper on every part of the state.
* `visitLink_ok`: a link that does not fault is skipped, leads to a flagged wrapper, or enqueues.
* `dequeue_ok`: the effect of one iteration, as a chain of such visits.
* `view_iterate`: the queue and the flags evolve as in a worklist search along the links.
-/

namespace DepTaint
namespace PDG

/-- The line recorded for `p` in the alloca map of `f`. -/
def recorded (m : FuncMap) (f : FuncId) (p : InstId) : Option Nat :=
  (m f).bind fun fw => fw.allocaMap.find? p

/-- The entry of `p` once `I` is enqueued from `W`, when it was `old`; `colored` says whether `W` is
coloured. A missing entry that is looked up becomes 0. -/
def nextLine (M : Module) (W : InstructionWrapper) (colored : Bool) (I p : InstId)
    (old : Option Nat) : Option Nat :=
  match M.kind I with
  | .store _ ptr =>
    if allocaOf M ptr = some p ∧ colored = true then
      if old.getD 0 = allocaMAX then some (M.line I) else some (old.getD 0)
    else old
  | .load ptr =>
    if allocaOf M ptr = some p then
      match W.inst with
      | some SI =>
        if old.getD 0 < allocaMAX ∧ (M.kind SI).isStore = true then some (M.line SI)
        else some (old.getD 0)
      | none => some (old.getD 0)
    else old
  | _ => old

/-- The effect of enqueuing `adj`, the wrapper of `I`, from `W`. -/
structure Enqueued (M : Module) (W adj : InstructionWrapper) (I : InstId) (s s' : PropState) :
    Prop where
  queue : s'.queue = s.queue ++ [adj]
  flag : s'.flag = Function.update s.flag adj true
  colored : s'.coloredInstSet = if s.coloredInstSet W then
    Function.update s.coloredInstSet adj true else s.coloredInstSet
  pdg : s'.pdg = s.pdg
  source : s.coloredInstSet W = true → ∃ i, W.inst = some i
  taint_ne : ∀ j, j ≠ I → s'.taintMap j = s.taintMap j
  taint_isSome : (s.taintMap I).isSome ∨ s.coloredInstSet W = true → (s'.taintMap I).isSome
  func_isSome : ∀ f, (s'.funcMap f).isSome = (s.funcMap f).isSome
  recorded : ∀ f p, recorded s'.funcMap f p =
    if f = M.parent I then nextLine M W (s.coloredInstSet W) I p (recorded s.funcMap f p)
    else recorded s.funcMap f p

section Lines

variable {M : Module} {W adj : InstructionWrapper} {I p : InstId} {s s' : PropState}

theorem FuncMap.get_eq_ok {m : FuncMap} {f : FuncId} {fw : FunctionWrapper} :
    m.get f = .ok fw ↔ m f = some fw := by
  unfold FuncMap.get
  cases m f <;> simp

theorem getInst_eq_ok {w : InstructionWrapper} : getInst w = .ok I ↔ w.inst = some I := by
  unfold getInst
  cases w.inst <;> simp

theorem recorded_set {m : FuncMap} {f g : FuncId} {fw : FunctionWrapper} :
    recorded (m.set f fw) g p = if g = f then fw.allocaMap.find? p else recorded m g p := by
  unfold recorded
  rw [FuncMap.set_apply]
  split <;> rfl

theorem isSome_set {m : FuncMap} {f g : FuncId} {fw fw' : FunctionWrapper} (h : m f = some fw) :
    (m.set f fw' g).isSome = (m g).isSome := by
  rw [FuncMap.set_apply]
  split
  · rename_i hg
    rw [hg, h]
    rfl
  · rfl

theorem find?_touch {am : SortedMap InstId Nat} {q : InstId} :
    (am.touch q 0).find? p = if p = q then some ((am.find? q).getD 0) else am.find? p := by
  unfold SortedMap.touch
  cases hq : am.find? q with
  | some v =>
    by_cases hp : p = q
    · subst hp
      simp [hq]
    · simp [hp]
  | none =>
    rw [if_neg (by simp), SortedMap.find?_insert]
    by_cases hp : p = q <;> simp [hp]

/-- The record after the entry `q` of `F` became `v`. -/
theorem recorded_entry {m : FuncMap} {f F : FuncId} {fw : FunctionWrapper}
    {am : SortedMap InstId Nat} {q : InstId} {v : Nat} (hfw : m F = some fw)
    (ham : ∀ p, am.find? p = if p = q then some v else fw.allocaMap.find? p) :
    recorded (m.set F { fw with allocaMap := am }) f p =
      if f = F ∧ p = q then some v else recorded m f p := by
  rw [recorded_set]
  by_cases hf : f = F
  · subst hf
    simp [ham, recorded, hfw]
  · simp [hf]

/-- `visitStore` only changes the entry of the pointer and the names of the store. -/
theorem visitStore_ok {q : InstId} (h : visitStore M W I q s = .ok s') :
    s'.queue = s.queue ∧ s'.flag = s.flag ∧ s'.coloredInstSet = s.coloredInstSet ∧
      s'.pdg = s.pdg ∧ (∀ j, j ≠ I → s'.taintMap j = s.taintMap j) ∧ (s'.taintMap I).isSome ∧
      (∀ f, (s'.funcMap f).isSome = (s.funcMap f).isSome) ∧
      ∀ f p, recorded s'.funcMap f p =
        if f = M.parent I ∧ p = q ∧ s.coloredInstSet W = true then
          if (recorded s.funcMap f p).getD 0 = allocaMAX then some (M.line I)
          else some ((recorded s.funcMap f p).getD 0)
        else recorded s.funcMap f p := by
  unfold visitStore at h
  by_cases hc : s.coloredInstSet W = true
  · simp only [PropState.insertTaint, hc, if_true, bind_eq_ok] at h
    obtain ⟨_, _, fw, hfw, hs'⟩ := h
    rw [FuncMap.get_eq_ok] at hfw
    cases hs'
    refine ⟨rfl, rfl, rfl, rfl, fun j hj => Function.update_of_ne hj _ _, by simp,
      fun f => isSome_set hfw, fun f p => ?_⟩
    have ham : ∀ p, (if (fw.allocaMap.find? q).getD 0 = allocaMAX then
          fw.allocaMap.insert q (M.line I) else fw.allocaMap.touch q 0).find? p =
        if p = q then
          some (if (fw.allocaMap.find? q).getD 0 = allocaMAX then M.line I
            else (fw.allocaMap.find? q).getD 0)
        else fw.allocaMap.find? p := by
      intro p
      split
      · exact SortedMap.find?_insert ..
      · exact find?_touch
    dsimp only
    rw [recorded_entry hfw ham]
    by_cases hp : f = M.parent I ∧ p = q
    · obtain ⟨rfl, rfl⟩ := hp
      have hrec : recorded s.funcMap (M.parent I) p = fw.allocaMap.find? p := by
        simp [recorded, hfw]
      simp only [hc, hrec, and_self, if_true]
      exact apply_ite some _ _ _
    · simp [hp, ← and_assoc]
  · rw [Bool.not_eq_true] at hc
    simp only [PropState.insertTaint, hc, Bool.false_eq_true, if_false, Except.ok.injEq] at h
    subst h
    exact ⟨rfl, rfl, rfl, rfl, fun j hj => Function.update_of_ne hj _ _, by simp, fun _ => rfl,
      fun f p => by simp [hc]⟩

/-- `visitLoad` only changes the entry of the pointer and the names of the load. -/
theorem visitLoad_ok {q : InstId} (h : visitLoad M W I q s = .ok s') :
    s'.queue = s.queue ∧ s'.flag = s.flag ∧ s'.coloredInstSet = s.coloredInstSet ∧
      s'.pdg = s.pdg ∧ (∀ j, j ≠ I → s'.taintMap j = s.taintMap j) ∧
      ((s.taintMap I).isSome → (s'.taintMap I).isSome) ∧
      (∀ f, (s'.funcMap f).isSome = (s.funcMap f).isSome) ∧
      ∀ f p, recorded s'.funcMap f p =
        if f = M.parent I ∧ p = q then
          match W.inst with
          | some SI =>
            if (recorded s.funcMap f p).getD 0 < allocaMAX ∧ (M.kind SI).isStore = true then
              some (M.line SI)
            else some ((recorded s.funcMap f p).getD 0)
          | none => some ((recorded s.funcMap f p).getD 0)
        else recorded s.funcMap f p := by
  unfold visitLoad at h
  obtain ⟨fw, hfw, h⟩ := bind_eq_ok.mp h
  rw [FuncMap.get_eq_ok] at hfw
  have hrec : recorded s.funcMap (M.parent I) q = fw.allocaMap.find? q := by simp [recorded, hfw]
  by_cases hlt : (fw.allocaMap.find? q).getD 0 < allocaMAX
  · rw [if_pos hlt] at h
    obtain ⟨SI, hSI, h⟩ := bind_eq_ok.mp h
    rw [getInst_eq_ok] at hSI
    by_cases hst : (M.kind SI).isStore = true
    · rw [if_pos hst] at h
      cases h
      have ham : ∀ p, ((fw.allocaMap.touch q 0).insert q (M.line SI)).find? p =
          if p = q then some (M.line SI) else fw.allocaMap.find? p := by
        intro p
        rw [SortedMap.find?_insert, find?_touch]
        split <;> rfl
      refine ⟨rfl, rfl, rfl, rfl, fun j hj => Function.update_of_ne hj _ _,
        fun _ => by simp [PropState.insertTaint], fun f => ?_, fun f p => ?_⟩ <;>
        simp only [PropState.insertTaint, FuncMap.set_set]
      · exact isSome_set hfw
      rw [recorded_entry hfw ham]
      by_cases hp : f = M.parent I ∧ p = q
      · obtain ⟨rfl, rfl⟩ := hp
        simp [hSI, hrec, hlt, hst]
      · simp [hp]
    · rw [if_neg hst] at h
      cases h
      refine ⟨rfl, rfl, rfl, rfl, fun j hj => Function.update_of_ne hj _ _,
        fun _ => by simp [PropState.insertTaint], fun f => isSome_set hfw, fun f p => ?_⟩
      simp only [PropState.insertTaint]
      rw [recorded_entry hfw fun _ => find?_touch]
      by_cases hp : f = M.parent I ∧ p = q
      · obtain ⟨rfl, rfl⟩ := hp
        simp [hrec, hSI, hst]
      · simp [hp]
  · rw [if_neg hlt] at h
    cases h
    refine ⟨rfl, rfl, rfl, rfl, fun _ _ => rfl, id, fun f => isSome_set hfw, fun f p => ?_⟩
    dsimp only
    rw [recorded_entry hfw fun _ => find?_touch]
    by_cases hp : f = M.parent I ∧ p = q
    · obtain ⟨rfl, rfl⟩ := hp
      rw [if_pos ⟨rfl, rfl⟩, if_pos ⟨rfl, rfl⟩, hrec]
      split
      · rw [if_neg fun h => hlt h.1]
      · rfl
    · rw [if_neg hp, if_neg hp]

end Lines

/-! ## Enqueuing -/

section Enqueue

variable {M : Module} {reg : Registry} {W adj : InstructionWrapper} {I : InstId}
  {taints : Finset String} {s s' : PropState}

theorem colorAdjacent_ok (h : colorAdjacent W taints adj I s = .ok s') :
    s'.queue = s.queue ∧ s'.flag = s.flag ∧ s'.pdg = s.pdg ∧ s'.funcMap = s.funcMap ∧
      (s'.coloredInstSet = if s.coloredInstSet W then
        Function.update s.coloredInstSet adj true else s.coloredInstSet) ∧
      (s.coloredInstSet W = true → ∃ i, W.inst = some i) ∧
      (∀ j, j ≠ I → s'.taintMap j = s.taintMap j) ∧
      ((s.taintMap I).isSome ∨ s.coloredInstSet W = true → (s'.taintMap I).isSome) := by
  unfold colorAdjacent at h
  by_cases hc : s.coloredInstSet W = true
  · rw [if_pos hc] at h
    obtain ⟨i, hi, hs'⟩ := bind_eq_ok.mp h
    cases hs'
    exact ⟨rfl, rfl, rfl, rfl, by simp [hc], fun _ => ⟨i, getInst_eq_ok.mp hi⟩,
      fun j hj => Function.update_of_ne hj _ _, by simp⟩
  · rw [if_neg hc] at h
    cases h
    exact ⟨rfl, rfl, rfl, rfl, by simp [hc], fun h => absurd h hc, fun _ _ => rfl, by simp [hc]⟩

theorem visitBranch_ok (h : visitBranch M I s = .ok s') :
    s'.queue = s.queue ∧ s'.flag = s.flag ∧ s'.pdg = s.pdg ∧ s'.funcMap = s.funcMap ∧
      s'.coloredInstSet = s.coloredInstSet ∧ (∀ j, j ≠ I → s'.taintMap j = s.taintMap j) ∧
      ((s.taintMap I).isSome → (s'.taintMap I).isSome) := by
  unfold visitBranch at h
  by_cases hb : (M.kind I).isBranch = true
  · rw [if_pos hb] at h
    obtain ⟨_, _, hs'⟩ := bind_eq_ok.mp h
    cases hs'
    exact ⟨rfl, rfl, rfl, rfl, rfl, fun j hj => Function.update_of_ne hj _ _, by simp⟩
  · rw [if_neg hb] at h
    cases h
    exact ⟨rfl, rfl, rfl, rfl, rfl, fun _ _ => rfl, id⟩

theorem visitMemory_ok (h : visitMemory M W I s = .ok s') :
    s'.queue = s.queue ∧ s'.flag = s.flag ∧ s'.pdg = s.pdg ∧
      s'.coloredInstSet = s.coloredInstSet ∧ (∀ j, j ≠ I → s'.taintMap j = s.taintMap j) ∧
      ((s.taintMap I).isSome → (s'.taintMap I).isSome) ∧
      (∀ f, (s'.funcMap f).isSome = (s.funcMap f).isSome) ∧
      ∀ f p, recorded s'.funcMap f p =
        if f = M.parent I then nextLine M W (s.coloredInstSet W) I p (recorded s.funcMap f p)
        else recorded s.funcMap f p := by
  unfold visitMemory at h
  unfold nextLine
  cases hk : M.kind I with
  | store v ptr =>
    rw [hk] at h
    dsimp only at h ⊢
    cases hp : allocaOf M ptr with
    | none =>
      rw [hp] at h
      cases h
      exact ⟨rfl, rfl, rfl, rfl, fun _ _ => rfl, id, fun _ => rfl, by simp⟩
    | some q =>
      rw [hp] at h
      obtain ⟨h1, h2, h3, h4, h5, h6, h7, h8⟩ := visitStore_ok h
      refine ⟨h1, h2, h4, h3, h5, fun _ => h6, h7, fun f p => ?_⟩
      rw [h8]
      by_cases hf : f = M.parent I <;> simp [hf, eq_comm (a := p)]
  | load ptr =>
    rw [hk] at h
    dsimp only at h ⊢
    cases hp : allocaOf M ptr with
    | none =>
      rw [hp] at h
      cases h
      exact ⟨rfl, rfl, rfl, rfl, fun _ _ => rfl, id, fun _ => rfl, by simp⟩
    | some q =>
      rw [hp] at h
      obtain ⟨h1, h2, h3, h4, h5, h6, h7, h8⟩ := visitLoad_ok h
      refine ⟨h1, h2, h4, h3, h5, h6, h7, fun f p => ?_⟩
      rw [h8]
      by_cases hf : f = M.parent I <;> simp [hf, eq_comm (a := p)]
  | _ =>
    simp only [hk] at h
    split at h
    · cases h
      exact ⟨rfl, rfl, rfl, rfl, fun _ _ => rfl, id, fun _ => rfl, by simp⟩
    · cases h

/-- What enqueuing does when it does not fault. -/
theorem enqueue_ok (h : enqueue M W taints adj I s = .ok s') : Enqueued M W adj I s s' := by
  obtain ⟨s1, h1, h⟩ := bind_eq_ok.mp h
  obtain ⟨s2, h2, h3⟩ := bind_eq_ok.mp h
  obtain ⟨q1, f1, p1, m1, c1, o1, t1, i1⟩ := colorAdjacent_ok h1
  obtain ⟨q2, f2, p2, m2, c2, t2, i2⟩ := visitBranch_ok h2
  obtain ⟨q3, f3, p3, c3, t3, i3, m3, r3⟩ := visitMemory_ok h3
  dsimp only at q1 f1 p1 m1 c1 o1 t1 i1
  refine ⟨by rw [q3, q2, q1], by rw [f3, f2, f1], by rw [c3, c2, c1], by rw [p3, p2, p1], o1,
    fun j hj => ?_, fun ht => i3 (i2 (i1 ht)), fun f => ?_, fun f p => ?_⟩
  · rw [t3 j hj, t2 j hj, t1 j hj]
  · rw [m3, m2, m1]
  · have hcW : s2.coloredInstSet W = s.coloredInstSet W := by
      rw [c2, c1]
      by_cases hc : s.coloredInstSet W = true
      · rw [if_pos hc, Function.update_apply]
        split
        · exact hc.symm
        · rfl
      · rw [if_neg hc]
    rw [r3, hcW, m2, m1]

theorem Enqueued.flag_iff (h : Enqueued M W adj I s s') {w : InstructionWrapper} :
    s'.flag w = true ↔ s.flag w = true ∨ w = adj := by
  rw [h.flag, Function.update_apply]
  split
  · rename_i hw
    simp [hw]
  · rename_i hw
    simp [hw]

theorem Enqueued.colored_mono (h : Enqueued M W adj I s s') {w : InstructionWrapper}
    (hw : s.coloredInstSet w = true) : s'.coloredInstSet w = true := by
  rw [h.colored]
  split
  · rw [Function.update_apply]
    split
    · rfl
    · exact hw
  · exact hw

/-- From a wrapper that carries an instruction, the only fault is a missing entry of `taintMap`, and
only when the wrapper is not coloured. -/
theorem enqueue_error {i : InstId} {e : Fault} (hW : W.inst = some i)
    (hf : (s.funcMap (M.parent I)).isSome) (h : enqueue M W taints adj I s = .error e) :
    e = .missingTaint ∧ s.coloredInstSet W = false := by
  obtain ⟨fw, hfw⟩ := Option.isSome_iff_exists.mp hf
  unfold enqueue at h
  cases h1 : colorAdjacent W taints adj I { s with
      queue := s.queue ++ [adj], flag := Function.update s.flag adj true } with
  | error e1 =>
    simp only [colorAdjacent, getInst, hW] at h1
    split at h1 <;> cases h1
  | ok s1 =>
    rw [h1] at h
    obtain ⟨_, _, _, m1, _, _, _, i1⟩ := colorAdjacent_ok h1
    dsimp only at m1 i1
    cases h2 : visitBranch M I s1 with
    | error e2 =>
      simp only [visitBranch, m1, FuncMap.get_of_some hfw] at h2
      split at h2 <;> cases h2
    | ok s2 =>
      simp only [bind, Except.bind, h2] at h
      obtain ⟨_, _, _, m2, _, _, i2⟩ := visitBranch_ok h2
      have hfw2 : s2.funcMap (M.parent I) = some fw := by rw [m2, m1, hfw]
      unfold visitMemory at h
      cases hk : M.kind I with
      | store v ptr =>
        rw [hk] at h
        dsimp only at h
        cases hp : allocaOf M ptr with
        | none =>
          rw [hp] at h
          cases h
        | some q =>
          rw [hp] at h
          simp only [visitStore, PropState.insertTaint, getInst, hW,
            FuncMap.get_of_some hfw2] at h
          split at h <;> cases h
      | load ptr =>
        rw [hk] at h
        dsimp only at h
        cases hp : allocaOf M ptr with
        | none =>
          rw [hp] at h
          cases h
        | some q =>
          rw [hp] at h
          simp only [visitLoad, FuncMap.get_of_some hfw2, getInst, hW] at h
          simp only [bind, Except.bind, pure, Except.pure] at h
          split at h
          · split at h <;> cases h
          · cases h
      | _ =>
        simp only [hk] at h
        split at h
        · cases h
        · rename_i hn
          cases h
          refine ⟨rfl, ?_⟩
          by_contra hc
          rw [Bool.not_eq_false] at hc
          exact hn (i2 (i1 (.inr hc)))

end Enqueue

/-! ## One iteration -/

/-- The wrapper a followed link leads to. -/
def follow (link : WrapperPtr × Int) : Option InstructionWrapper :=
  if link.2 = DependencyType.call.toInt then none
  else
    match link.1 with
    | .to w => some w
    | _ => none

/-- The wrappers the loop goes on to from `w`, in link order. -/
def follows (pdg : DependencyGraph WrapperPtr) (w : InstructionWrapper) :
    List InstructionWrapper :=
  (pdg.linksFrom (.to w)).filterMap follow

/-- The queue and the flags. -/
def view (s : PropState) : Worklist InstructionWrapper := ⟨s.queue, s.flag⟩

/-- A dequeued wrapper that is coloured: it has a value, and is no call node. -/
def colors (M : Module) (W : InstructionWrapper) : Bool :=
  match W.value with
  | none => false
  | some (.inst i) => !(M.kind i).isCall
  | some _ => true

/-- What `dequeue` does before it looks at the links. -/
def prepare (M : Module) (W : InstructionWrapper) (s : PropState) : Except Fault PropState := do
  let s ← setVisited W s
  let s := colorSelf M W s
  return { s with pdg := s.pdg.getNodeByData (.to W) }

/-- The state in which the links of the dequeued wrapper are visited. -/
structure Prepared (M : Module) (W : InstructionWrapper) (s s' : PropState) : Prop where
  queue : s'.queue = s.queue
  flag : s'.flag = s.flag
  taintMap : s'.taintMap = s.taintMap
  colored : ∀ w, s'.coloredInstSet w = true ↔
    s.coloredInstSet w = true ∨ (w = W ∧ colors M W = true)
  linksFrom : ∀ p, s'.pdg.linksFrom p = s.pdg.linksFrom p
  func_isSome : ∀ f, (s'.funcMap f).isSome = (s.funcMap f).isSome
  recorded : ∀ f p, recorded s'.funcMap f p = recorded s.funcMap f p

section Dequeue

variable {M : Module} {reg : Registry} {W adj : InstructionWrapper} {I : InstId}
  {taints : Finset String} {s s' : PropState} {link : WrapperPtr × Int}

theorem mem_follows {pdg : DependencyGraph WrapperPtr} {w w' : InstructionWrapper} :
    w' ∈ follows pdg w ↔ ∃ t, t ≠ DependencyType.call.toInt ∧ pdg.HasLink (.to w) (.to w') t := by
  simp only [follows, List.mem_filterMap, DependencyGraph.HasLink]
  constructor
  · rintro ⟨⟨p, t⟩, hl, hf⟩
    unfold follow at hf
    split at hf
    · cases hf
    · rename_i ht
      dsimp only at hf ht
      split at hf
      · cases hf
        exact ⟨t, ht, hl⟩
      · cases hf
  · rintro ⟨t, ht, hl⟩
    exact ⟨(.to w', t), hl, by simp [follow, ht]⟩

theorem findNode_eq_ok {p : WrapperPtr} {o : Option InstructionWrapper} :
    findNode reg p = .ok o ↔
      (p = .null ∧ o = none) ∨ ∃ w, p = .to w ∧ w ∈ reg.nodes ∧ o = some w := by
  cases p with
  | null => simp [findNode, eq_comm]
  | wild => simp [findNode]
  | «to» w =>
    by_cases hw : w ∈ reg.nodes <;> simp [findNode, hw, eq_comm]

/-- A link that does not fault is not followed, or leads to a registered wrapper with an instruction
that is flagged already or enqueued. -/
theorem visitLink_ok (h : visitLink M reg W taints s link = .ok s') :
    (follow link = none ∧ s' = s) ∨
      ∃ adj I, follow link = some adj ∧ adj ∈ reg.nodes ∧ adj.inst = some I ∧
        ((s.flag adj = true ∧ s' = s) ∨ (s.flag adj = false ∧ Enqueued M W adj I s s')) := by
  unfold visitLink at h
  unfold follow
  by_cases ht : link.2 = DependencyType.call.toInt
  · rw [if_pos ht] at h ⊢
    cases h
    exact .inl ⟨rfl, rfl⟩
  · rw [if_neg ht] at h ⊢
    obtain ⟨o, ho, h⟩ := bind_eq_ok.mp h
    rcases findNode_eq_ok.mp ho with ⟨hp, rfl⟩ | ⟨w, hp, hw, rfl⟩
    · cases h
      exact .inl ⟨by rw [hp], rfl⟩
    · obtain ⟨I, hI, h⟩ := bind_eq_ok.mp h
      rw [getInst_eq_ok] at hI
      refine .inr ⟨w, I, by rw [hp], hw, hI, ?_⟩
      split at h
      · rename_i hflag
        cases h
        exact .inl ⟨hflag, rfl⟩
      · rename_i hflag
        exact .inr ⟨by simpa using hflag, enqueue_ok h⟩

theorem setVisited_ok (h : setVisited W s = .ok s') :
    s'.queue = s.queue ∧ s'.flag = s.flag ∧ s'.taintMap = s.taintMap ∧
      s'.coloredInstSet = s.coloredInstSet ∧ s'.pdg = s.pdg ∧
      (∀ f, (s'.funcMap f).isSome = (s.funcMap f).isSome) ∧
      ∀ f p, recorded s'.funcMap f p = recorded s.funcMap f p := by
  unfold setVisited at h
  split at h
  · split at h
    · cases h
    · rename_i F _
      obtain ⟨fw, hfw, h⟩ := bind_eq_ok.mp h
      rw [FuncMap.get_eq_ok] at hfw
      cases h
      refine ⟨rfl, rfl, rfl, rfl, rfl, fun f => isSome_set hfw, fun f p => ?_⟩
      dsimp only
      rw [recorded_set]
      split
      · rename_i hf
        simp [recorded, hf, hfw]
      · rfl
  · cases h
    exact ⟨rfl, rfl, rfl, rfl, rfl, fun _ => rfl, fun _ _ => rfl⟩

theorem colorSelf_eq : colorSelf M W s = { s with
    coloredInstSet := if colors M W then Function.update s.coloredInstSet W true
      else s.coloredInstSet } := by
  unfold colorSelf colors
  cases hv : W.value with
  | none => rfl
  | some v =>
    cases v with
    | inst i => cases hk : (M.kind i).isCall <;> simp [hk]
    | _ => rfl

/-- An iteration that does not fault prepares the state and visits the links. -/
theorem dequeue_ok (h : dequeue M reg s W = .ok s') :
    ∃ s0, prepare M W s = .ok s0 ∧ Prepared M W s s0 ∧
      (s.pdg.linksFrom (.to W)).foldlM (visitLink M reg W (taintValuesOn W s)) s0 = .ok s' := by
  unfold dequeue at h
  obtain ⟨s1, h1, h⟩ := bind_eq_ok.mp h
  obtain ⟨_, _, h⟩ := bind_eq_ok.mp h
  obtain ⟨hq, hf, ht, hc, hp, hs, hr⟩ := setVisited_ok h1
  have htaint : taintValuesOn W s1 = taintValuesOn W s := by
    rw [taintValuesOn, taintValuesOn, ht]
  rw [colorSelf_eq] at h
  simp only [DependencyGraph.linksFrom_getNodeByData, hp] at h
  refine ⟨_, bind_eq_ok.mpr ⟨s1, h1, rfl⟩, ?_, ?_⟩
  · rw [colorSelf_eq]
    refine ⟨hq, hf, ht, ?_, ?_, hs, hr⟩
    · intro w
      dsimp only
      rw [hc]
      cases colors M W with
      | false => simp
      | true =>
        rw [if_pos rfl, Function.update_apply]
        by_cases hw : w = W <;> simp [hw]
    · intro p
      dsimp only
      rw [DependencyGraph.linksFrom_getNodeByData, hp]
  · rw [colorSelf_eq, ← htaint, hp]
    exact h

/-- The induction rule of one iteration: what holds once the links are visited, if it holds in the
prepared state and each enqueuing keeps it. -/
theorem dequeue_induction {P : PropState → Prop} (h : dequeue M reg s W = .ok s')
    (h0 : ∀ s0, Prepared M W s s0 → P s0)
    (hstep : ∀ s1 s2 adj I, adj ∈ follows s.pdg W → adj ∈ reg.nodes → adj.inst = some I →
      s1.flag adj = false → Enqueued M W adj I s1 s2 → P s1 → P s2) : P s' := by
  obtain ⟨s0, -, hp, hfold⟩ := dequeue_ok h
  refine foldlM_preserves hfold (h0 s0 hp) fun s1 link s2 hl hv h1 => ?_
  rcases visitLink_ok hv with ⟨_, rfl⟩ | ⟨adj, I, hf, hn, hi, ⟨_, rfl⟩ | ⟨hflag, he⟩⟩
  · exact h1
  · exact h1
  · exact hstep s1 s2 adj I (List.mem_filterMap.mpr ⟨link, hl, hf⟩) hn hi hflag he h1

/-- An iteration that does not fault visits every link of the dequeued wrapper. -/
theorem dequeue_visits (h : dequeue M reg s W = .ok s') (hl : link ∈ s.pdg.linksFrom (.to W)) :
    ∃ taints s1 s2, visitLink M reg W taints s1 link = .ok s2 := by
  obtain ⟨s0, -, -, hfold⟩ := dequeue_ok h
  exact ⟨_, foldlM_visits hfold hl⟩

/-- Every link of a dequeued wrapper is fit to be followed. -/
theorem dequeue_follows (h : dequeue M reg s W = .ok s') :
    ∀ adj ∈ follows s.pdg W, adj ∈ reg.nodes ∧ ∃ I, adj.inst = some I := by
  intro adj hadj
  obtain ⟨link, hl, hf⟩ := List.mem_filterMap.mp hadj
  obtain ⟨taints, s1, s2, hv⟩ := dequeue_visits h hl
  rcases visitLink_ok hv with ⟨hn, _⟩ | ⟨adj', I, hf', hn, hi, _⟩
  · rw [hf] at hn
    cases hn
  · rw [hf] at hf'
    cases hf'
    exact ⟨hn, I, hi⟩

/-- The queue and the flags evolve as the links of `W` are pushed. -/
theorem view_dequeue (h : dequeue M reg s W = .ok s') :
    view s' = (follows s.pdg W).foldl Worklist.push (view s) ∧
      ∀ p, s'.pdg.linksFrom p = s.pdg.linksFrom p := by
  obtain ⟨s0, -, hp, hfold⟩ := dequeue_ok h
  have hv0 : view s0 = view s := by rw [view, view, hp.queue, hp.flag]
  rw [← hv0]
  refine ⟨?_, fun p => ?_⟩
  · unfold follows
    clear hp hv0
    generalize s.pdg.linksFrom (.to W) = links at hfold
    induction links generalizing s0 with
    | nil =>
      cases hfold
      rfl
    | cons l ls ih =>
      rw [List.foldlM_cons] at hfold
      obtain ⟨s1, h1, h2⟩ := bind_eq_ok.mp hfold
      rw [ih s1 h2]
      rcases visitLink_ok h1 with ⟨hf, rfl⟩ | ⟨adj, I, hf, _, _, ⟨hflag, rfl⟩ | ⟨hflag, he⟩⟩
      · rw [List.filterMap_cons, hf]
      · rw [List.filterMap_cons, hf, List.foldl_cons]
        congr 1
        simp [Worklist.push, view, hflag]
      · rw [List.filterMap_cons, hf, List.foldl_cons]
        congr 1
        simp [Worklist.push, view, hflag, he.queue, he.flag]
  · rw [← hp.linksFrom p]
    refine foldlM_preserves (P := fun s1 : PropState => s1.pdg.linksFrom p = s0.pdg.linksFrom p)
      hfold rfl fun s1 link s2 _ hv h1 => ?_
    rcases visitLink_ok hv with ⟨_, rfl⟩ | ⟨adj, I, _, _, _, ⟨_, rfl⟩ | ⟨_, he⟩⟩
    · exact h1
    · exact h1
    · rw [he.pdg, h1]

/-! ## The run -/

theorem iterate_ok (h : iterate M reg s = .ok s') :
    (s.queue = [] ∧ s' = s) ∨ ∃ W queue, s.queue = W :: queue ∧
      dequeue M reg { s with queue := queue } W = .ok s' := by
  unfold iterate at h
  split at h
  · rename_i hq
    cases h
    exact .inl ⟨hq, rfl⟩
  · rename_i W queue hq
    exact .inr ⟨W, queue, hq, h⟩

/-- The loop refines the worklist search along the followed links. -/
theorem view_iterate (h : iterate M reg s = .ok s') :
    view s' = Worklist.step (follows s.pdg) (view s) ∧
      ∀ p, s'.pdg.linksFrom p = s.pdg.linksFrom p := by
  rcases iterate_ok h with ⟨hq, rfl⟩ | ⟨W, queue, hq, hd⟩
  · have hnil : Worklist.step (follows s'.pdg) (view s') = view s' := Worklist.step_nil hq
    exact ⟨hnil.symm, fun _ => rfl⟩
  · obtain ⟨hv, hl⟩ := view_dequeue hd
    refine ⟨?_, hl⟩
    rw [hv]
    simp [Worklist.step, view, hq]

theorem follows_congr {pdg pdg' : DependencyGraph WrapperPtr}
    (h : ∀ p, pdg'.linksFrom p = pdg.linksFrom p) : follows pdg' = follows pdg := by
  funext w
  rw [follows, follows, h]

end Dequeue

end PDG
end DepTaint
