import Mathlib.Data.List.Chain
import Mathlib.Data.List.Rotate
import Mathlib.Logic.Relation

/-!
# DepthFirst

Depth-first search with an explicit stack, and the back edges it reports.

A frame of the stack is a vertex with the successors that are still to be looked at. An edge is
reported when it leads to a vertex whose frame is on the stack.

* `Inv`: the reported edges close cycles; `fin` holds the finished vertices, the last one first, and
  an edge out of a finished vertex is reported or leads to a vertex that finished before.
* `run_terminates`: over finitely many vertices the search ends, with every vertex finished.
* `exists_mem_of_isCycle`: every cycle that can be reached has a reported edge.
-/

/-! ## Walks and cycles -/

section Cycle

variable {α : Type} {succs : α → List α} {u v : α} {c : List α}

/-- `v` can be reached from `u`. -/
abbrev Reaches (succs : α → List α) : α → α → Prop :=
  Relation.ReflTransGen fun u v => v ∈ succs u

/-- The edges of the closed walk through `c`, from each vertex to the next and from the last to the
first. -/
def cycleEdges (c : List α) : List (α × α) := c.zip (c.rotate 1)

/-- A directed cycle. -/
def IsCycle (succs : α → List α) (c : List α) : Prop :=
  c ≠ [] ∧ ∀ e ∈ cycleEdges c, e.2 ∈ succs e.1

/-- Every vertex of a cycle has an edge to another one. -/
theorem exists_mem_cycleEdges (hu : u ∈ c) : ∃ v ∈ c, (u, v) ∈ cycleEdges c := by
  obtain ⟨i, hi, rfl⟩ := List.getElem_of_mem hu
  have hr : i < (c.rotate 1).length := by rwa [List.length_rotate]
  refine ⟨(c.rotate 1)[i], List.mem_rotate.mp (List.getElem_mem hr), ?_⟩
  exact List.mem_iff_getElem.mpr ⟨i, by simp [cycleEdges, hi], by simp [cycleEdges]⟩

theorem isChain_zip_snoc {r : α → α → Prop} {a x : α} {l : List α} (h : (a :: l).IsChain r)
    (hx : r ((a :: l).getLast (List.cons_ne_nil a l)) x) :
    (∀ e ∈ (a :: l).zip (l ++ [x]), r e.1 e.2) ∧
      ((a :: l).getLast (List.cons_ne_nil a l), x) ∈ (a :: l).zip (l ++ [x]) := by
  induction l generalizing a with
  | nil => exact ⟨by simpa using hx, by simp⟩
  | cons b l ih =>
    obtain ⟨hab, hl⟩ := List.isChain_cons_cons.mp h
    obtain ⟨h1, h2⟩ := ih hl (by simpa using hx)
    rw [List.cons_append, List.zip_cons_cons]
    constructor
    · intro e he
      rcases List.mem_cons.mp he with rfl | he
      · exact hab
      · exact h1 e he
    · rw [List.getLast_cons (List.cons_ne_nil b l)]
      exact List.mem_cons_of_mem _ h2

/-- An edge whose source can be reached from its target lies on a cycle. -/
theorem exists_isCycle (hv : v ∈ succs u) (h : Reaches succs v u) :
    ∃ c, IsCycle succs c ∧ (u, v) ∈ cycleEdges c := by
  obtain ⟨l, hl, hlast⟩ := List.exists_isChain_cons_of_relationReflTransGen h
  have hedges : cycleEdges (v :: l) = (v :: l).zip (l ++ [v]) := by
    rw [cycleEdges, List.rotate_cons_succ, List.rotate_zero]
  obtain ⟨h1, h2⟩ := isChain_zip_snoc (x := v) hl (by rw [hlast]; exact hv)
  rw [hlast] at h2
  refine ⟨v :: l, ⟨List.cons_ne_nil v l, ?_⟩, ?_⟩
  · rw [hedges]
    exact h1
  · rw [hedges]
    exact h2

end Cycle

namespace DepthFirst

structure State (α : Type) where
  visited : List α
  /-- The top comes first. -/
  stack : List (α × List α)
  inStack : List α
  result : List (α × α)

section Model

variable {α : Type} [DecidableEq α] (succs : α → List α)

/-- Scan the successors of `u` up to the first one that is not visited: the edges to report, and
that successor with the ones behind it. -/
def scan (visited inStack : List α) (u : α) : List α → List (α × α) × Option (α × List α)
  | [] => ([], none)
  | v :: vs =>
    if v ∈ visited then
      let found := scan visited inStack u vs
      (if v ∈ inStack then (u, v) :: found.1 else found.1, found.2)
    else ([], some (v, vs))

/-- One round: go down to a new successor of the top, or go up. -/
def step (s : State α) : State α :=
  match s.stack with
  | [] => s
  | (u, vs) :: stack =>
    match scan s.visited s.inStack u vs with
    | (edges, some (v, vs)) =>
      { visited := s.visited.insert v
        stack := (v, succs v) :: (u, vs) :: stack
        inStack := s.inStack.insert v
        result := s.result ++ edges }
    | (edges, none) =>
      { visited := s.visited
        stack := stack
        inStack := s.inStack.erase u
        result := s.result ++ edges }

def start (root : α) : State α := ⟨[root], [(root, succs root)], [root], []⟩

/-- Rounds until the stack is empty. -/
def run : Nat → State α → Option (State α)
  | 0, _ => none
  | fuel + 1, s =>
    let s := step succs s
    if s.stack.isEmpty then some s else run fuel s

end Model

section Invariant

variable {α : Type} {succs : α → List α} {root u : α} {vs fin : List α}

/-- An edge out of a finished vertex is reported or leads to a vertex finished before. -/
def Ordered (succs : α → List α) (result : List (α × α)) : List α → Prop
  | [] => True
  | u :: fin => (∀ v ∈ succs u, (u, v) ∈ result ∨ v ∈ fin) ∧ Ordered succs result fin

/-- The part of each frame that was looked at leads to reported edges, to finished vertices and to
the frame above. -/
def Frames (succs : α → List α) (result : List (α × α)) (fin : List α) :
    Option α → List (α × List α) → Prop
  | _, [] => True
  | above, (u, vs) :: stack =>
    (∃ pre, succs u = pre ++ vs ∧ ∀ v ∈ pre, (u, v) ∈ result ∨ v ∈ fin ∨ some v = above) ∧
      Frames succs result fin (some u) stack

theorem Ordered.mono {result result' : List (α × α)} (hsub : result ⊆ result')
    (h : Ordered succs result fin) : Ordered succs result' fin := by
  induction fin with
  | nil => trivial
  | cons u fin ih => exact ⟨fun v hv => (h.1 v hv).imp (fun hr => hsub hr) id, ih h.2⟩

theorem Frames.mono {result result' : List (α × α)} {fin fin' : List α} {above above' : Option α}
    {stack : List (α × List α)} (hsub : result ⊆ result') (hfin : fin ⊆ fin')
    (habove : ∀ v, some v = above → v ∈ fin' ∨ some v = above')
    (h : Frames succs result fin above stack) : Frames succs result' fin' above' stack := by
  induction stack generalizing above above' with
  | nil => trivial
  | cons p stack ih =>
    obtain ⟨⟨pre, hpre, hv⟩, hrest⟩ := h
    refine ⟨⟨pre, hpre, fun v hmem => ?_⟩, ih (fun v hv => .inr hv) hrest⟩
    rcases hv v hmem with hr | hf | ha
    · exact .inl (hsub hr)
    · exact .inr (.inl (hfin hf))
    · exact .inr (habove v ha)

/-- What holds between two rounds; the vertices on the stack form the path to its top. -/
structure Inv (succs : α → List α) (root : α) (fin : List α) (s : State α) : Prop where
  inStack_eq : s.inStack = s.stack.map Prod.fst
  visited_iff : ∀ v, v ∈ s.visited ↔ v ∈ s.stack.map Prod.fst ∨ v ∈ fin
  path : (s.stack.map Prod.fst).IsChain fun v u => v ∈ succs u
  frames : Frames succs s.result fin none s.stack
  ordered : Ordered succs s.result fin
  root_mem : root ∈ s.visited
  reaches : ∀ v ∈ s.visited, Reaches succs root v
  result : ∀ e ∈ s.result, e.2 ∈ succs e.1 ∧ Reaches succs e.2 e.1 ∧ e.1 ∈ s.visited ∧
    e.2 ∈ s.visited

theorem inv_start (succs : α → List α) (root : α) : Inv succs root [] (start succs root) where
  inStack_eq := rfl
  visited_iff := by simp [start]
  path := List.isChain_singleton root
  frames := ⟨⟨[], rfl, by simp⟩, trivial⟩
  ordered := trivial
  root_mem := List.mem_singleton_self root
  reaches := by
    intro v hv
    obtain rfl := List.mem_singleton.mp hv
    exact .refl
  result := by simp [start]

/-- Every vertex on the stack leads to the top. -/
theorem reaches_top {stack : List (α × List α)}
    (h : (((u, vs) :: stack).map Prod.fst).IsChain fun v u => v ∈ succs u) :
    ∀ w ∈ ((u, vs) :: stack).map Prod.fst, Reaches succs w u := by
  induction stack generalizing u vs with
  | nil =>
    intro w hw
    obtain rfl : w = u := by simpa using hw
    exact .refl
  | cons p stack ih =>
    obtain ⟨hstep, hrest⟩ := List.isChain_cons_cons.mp h
    intro w hw
    rcases List.mem_cons.mp hw with rfl | hw
    · exact .refl
    · exact (ih hrest w hw).tail hstep

end Invariant

section Step

variable {α : Type} [DecidableEq α] {succs : α → List α} {s : State α} {root u : α}
  {vs fin : List α} {stack : List (α × List α)}

/-- What a scan has passed, and where it stops. -/
theorem scan_spec (visited inStack : List α) (u : α) (vs : List α) :
    ∃ pre, (∀ w ∈ pre, w ∈ visited) ∧
      (scan visited inStack u vs).1 = (pre.filter (· ∈ inStack)).map (Prod.mk u) ∧
      match (scan visited inStack u vs).2 with
      | none => vs = pre
      | some (v, post) => vs = pre ++ v :: post ∧ v ∉ visited := by
  induction vs with
  | nil => exact ⟨[], by simp, rfl, rfl⟩
  | cons w vs ih =>
    unfold scan
    by_cases hw : w ∈ visited
    · obtain ⟨pre, hpre, hedges, hnext⟩ := ih
      simp only [if_pos hw]
      refine ⟨w :: pre, List.forall_mem_cons.mpr ⟨hw, hpre⟩, ?_, ?_⟩
      · rw [hedges, List.filter_cons]
        by_cases hin : w ∈ inStack <;> simp [hin]
      · generalize (scan visited inStack u vs).2 = next at hnext ⊢
        cases next with
        | none => exact congrArg (w :: ·) hnext
        | some p => exact ⟨congrArg (w :: ·) hnext.1, hnext.2⟩
    · rw [if_neg hw]
      exact ⟨[], by simp, rfl, rfl, hw⟩

/-- The edges a scan reports. -/
abbrev backEdges (s : State α) (u : α) (pre : List α) : List (α × α) :=
  (pre.filter (· ∈ s.inStack)).map (Prod.mk u)

/-- What the scan of the top adds to the invariant, wherever it stops. -/
theorem Inv.scanned (h : Inv succs root fin s) (hs : s.stack = (u, vs) :: stack) {pre : List α}
    {post : List α} (hvs : vs = pre ++ post) (hpre : ∀ w ∈ pre, w ∈ s.visited) :
    let result := s.result ++ backEdges s u pre
    (∃ pre, succs u = pre ++ post ∧ ∀ w ∈ pre, (u, w) ∈ result ∨ w ∈ fin) ∧
      ∀ e ∈ result, e.2 ∈ succs e.1 ∧ Reaches succs e.2 e.1 ∧ e.1 ∈ s.visited ∧
        e.2 ∈ s.visited := by
  intro result
  have hframes := h.frames
  rw [hs] at hframes
  obtain ⟨⟨done, hdone, hmem⟩, _⟩ := hframes
  have hsuccs : succs u = (done ++ pre) ++ post := by rw [hdone, hvs, List.append_assoc]
  refine ⟨⟨done ++ pre, hsuccs, fun w hw => ?_⟩, fun e he => ?_⟩
  · rcases List.mem_append.mp hw with hw | hw
    · rcases hmem w hw with hr | hf | ha
      · exact .inl (List.mem_append_left _ hr)
      · exact .inr hf
      · cases ha
    · -- a visited vertex is on the stack, and then reported, or finished
      rcases (h.visited_iff w).mp (hpre w hw) with hin | hf
      · rw [← h.inStack_eq] at hin
        refine .inl (List.mem_append_right _ (List.mem_map_of_mem ?_))
        exact List.mem_filter.mpr ⟨hw, decide_eq_true hin⟩
      · exact .inr hf
  · rcases List.mem_append.mp he with he | he
    · exact h.result e he
    · obtain ⟨w, hw, rfl⟩ := List.mem_map.mp he
      obtain ⟨hw, hin⟩ := List.mem_filter.mp hw
      have hin := of_decide_eq_true hin
      have hpath := h.path
      rw [h.inStack_eq, hs] at hin
      rw [hs] at hpath
      refine ⟨?_, reaches_top hpath w hin, ?_, hpre w hw⟩
      · rw [hsuccs]
        exact List.mem_append_left _ (List.mem_append_right _ hw)
      · refine (h.visited_iff u).mpr (.inl ?_)
        rw [hs]
        exact List.mem_cons_self ..

variable (succs) in
/-- A round goes up, or down to a new successor of the top. -/
theorem step_cases (hs : s.stack = (u, vs) :: stack) :
    ((∀ w ∈ vs, w ∈ s.visited) ∧
      step succs s = ⟨s.visited, stack, s.inStack.erase u, s.result ++ backEdges s u vs⟩) ∨
    ∃ pre v post, vs = pre ++ v :: post ∧ (∀ w ∈ pre, w ∈ s.visited) ∧ v ∉ s.visited ∧
      step succs s = ⟨s.visited.insert v, (v, succs v) :: (u, post) :: stack,
        s.inStack.insert v, s.result ++ backEdges s u pre⟩ := by
  obtain ⟨pre, hpre, hedges, hnext⟩ := scan_spec s.visited s.inStack u vs
  simp only [step, hs]
  generalize scan s.visited s.inStack u vs = found at hedges hnext ⊢
  obtain ⟨edges, next⟩ := found
  subst hedges
  cases next with
  | none =>
    subst hnext
    exact .inl ⟨hpre, rfl⟩
  | some p =>
    obtain ⟨v, post⟩ := p
    exact .inr ⟨pre, v, post, hnext.1, hpre, hnext.2, rfl⟩

/-- A round keeps the invariant; when it goes up, the top has finished. -/
theorem Inv.step (h : Inv succs root fin s) (hs : s.stack = (u, vs) :: stack) :
    ∃ fin', Inv succs root fin' (step succs s) := by
  have hframes := h.frames
  have hpath := h.path
  have hin := h.inStack_eq
  have hvis := h.visited_iff
  rw [hs] at hframes hpath hin hvis
  rcases step_cases succs hs with ⟨hpre, he⟩ | ⟨pre, v, post, hvs, hpre, hnew, he⟩
  · obtain ⟨⟨done, hdone, hmem⟩, hres⟩ := h.scanned hs (List.append_nil vs).symm hpre
    have hsub : s.result ⊆ s.result ++ backEdges s u vs := List.subset_append_left ..
    rw [he]
    refine ⟨u :: fin, ?_, ?_, hpath.tail, ?_, ⟨?_, h.ordered.mono hsub⟩, h.root_mem, h.reaches,
      hres⟩
    · show s.inStack.erase u = stack.map Prod.fst
      rw [hin, List.map_cons, List.erase_cons_head]
    · intro v
      rw [hvis v, List.map_cons, List.mem_cons, List.mem_cons, or_assoc]
      exact or_left_comm
    · refine hframes.2.mono hsub (List.subset_cons_self u fin) fun v hv => .inl ?_
      exact Option.some.inj hv ▸ List.mem_cons_self ..
    · intro v hv
      rw [hdone, List.append_nil] at hv
      exact hmem v hv
  · obtain ⟨⟨done, hdone, hmem⟩, hres⟩ := h.scanned hs hvs hpre
    have hsub : s.result ⊆ s.result ++ backEdges s u pre := List.subset_append_left ..
    have hv : v ∈ succs u := by
      rw [hdone]
      exact List.mem_append_right _ (List.mem_cons_self ..)
    have hu : u ∈ s.visited := (hvis u).mpr (.inl (List.mem_cons_self ..))
    have hnin : v ∉ s.inStack := fun hmem =>
      hnew ((hvis v).mpr (.inl (hin ▸ hmem)))
    rw [he]
    refine ⟨fin, ?_, ?_, hpath.cons_cons hv, ?_, h.ordered.mono hsub, ?_, ?_, ?_⟩
    · show s.inStack.insert v = v :: (u, post).1 :: stack.map Prod.fst
      rw [List.insert_of_not_mem hnin, hin, List.map_cons]
    · intro w
      rw [List.mem_insert_iff, hvis w, List.map_cons, List.map_cons, List.map_cons]
      simp only [List.mem_cons, or_assoc]
    · refine ⟨⟨[], rfl, by simp⟩, ⟨done ++ [v], ?_, fun w hw => ?_⟩, ?_⟩
      · rw [hdone, List.append_assoc, List.singleton_append]
      · rcases List.mem_append.mp hw with hw | hw
        · exact (hmem w hw).imp id .inl
        · exact .inr (.inr (congrArg some (List.mem_singleton.mp hw)))
      · exact hframes.2.mono hsub (List.Subset.refl _) fun w hw => .inr hw
    · exact List.mem_insert_of_mem h.root_mem
    · intro w hw
      rcases List.mem_insert_iff.mp hw with rfl | hw
      · exact (h.reaches u hu).tail hv
      · exact h.reaches w hw
    · intro e hmem
      obtain ⟨h1, h2, h3, h4⟩ := hres e hmem
      exact ⟨h1, h2, List.mem_insert_of_mem h3, List.mem_insert_of_mem h4⟩

/-! ## Termination -/

/-- Vertices that are still to be visited count twice: for going down and for coming up. -/
def measure (blocks : List α) (s : State α) : Nat :=
  2 * (blocks.filter (· ∉ s.visited)).length + s.stack.length

theorem length_filter_insert_lt {blocks visited : List α} {v : α} (hv : v ∈ blocks)
    (hnew : v ∉ visited) :
    (blocks.filter (· ∉ visited.insert v)).length < (blocks.filter (· ∉ visited)).length := by
  have hsplit : blocks.filter (· ∉ visited.insert v) =
      (blocks.filter (· ∉ visited)).filter (· ≠ v) := by
    rw [List.filter_filter]
    refine List.filter_congr fun w _ => ?_
    simp [List.mem_insert_iff]
  rw [hsplit]
  refine List.length_filter_lt_length_iff_exists.mpr ⟨v, ?_, by simp⟩
  exact List.mem_filter.mpr ⟨hv, decide_eq_true hnew⟩

theorem measure_step {blocks : List α} (h : Inv succs root fin s)
    (hs : s.stack = (u, vs) :: stack) (hblocks : ∀ v, Reaches succs root v → v ∈ blocks) :
    measure blocks (step succs s) < measure blocks s := by
  obtain ⟨fin', h'⟩ := h.step hs
  rcases step_cases succs hs with ⟨_, he⟩ | ⟨pre, v, post, _, _, hnew, he⟩
  · rw [he]
    simp only [measure, hs, List.length_cons]
    omega
  · have hv : v ∈ blocks := by
      refine hblocks v (h'.reaches v ?_)
      rw [he]
      exact List.mem_insert_self
    have hlt := length_filter_insert_lt hv hnew
    rw [he]
    simp only [measure, hs, List.length_cons]
    omega

theorem run_succ (fuel : Nat) (s : State α) :
    run succs (fuel + 1) s =
      if (step succs s).stack = [] then some (step succs s) else run succs fuel (step succs s) := by
  rw [run]
  simp only [List.isEmpty_iff]

/-- Over finitely many vertices the search ends, with every vertex finished. -/
theorem run_terminates {blocks : List α} (hblocks : ∀ v, Reaches succs root v → v ∈ blocks)
    (h : Inv succs root fin s) (hs : s.stack ≠ []) :
    ∃ s' fin', (∀ fuel, measure blocks s ≤ fuel → run succs fuel s = some s') ∧
      Inv succs root fin' s' ∧ s'.stack = [] := by
  induction hn : measure blocks s using Nat.strong_induction_on generalizing s fin with
  | _ n ih =>
    obtain ⟨u, vs, stack, hs⟩ : ∃ u vs stack, s.stack = (u, vs) :: stack := by
      obtain ⟨p, stack, hp⟩ := List.exists_cons_of_ne_nil hs
      exact ⟨p.1, p.2, stack, hp⟩
    obtain ⟨fin1, h1⟩ := h.step hs
    have hlt := measure_step h hs hblocks
    by_cases hend : (step succs s).stack = []
    · refine ⟨step succs s, fin1, fun fuel hle => ?_, h1, hend⟩
      cases fuel with
      | zero => omega
      | succ fuel => rw [run_succ, if_pos hend]
    · obtain ⟨s', fin', hrun, h', hstack⟩ := ih _ (hn ▸ hlt) h1 hend rfl
      refine ⟨s', fin', fun fuel hle => ?_, h', hstack⟩
      cases fuel with
      | zero => omega
      | succ fuel =>
        rw [run_succ, if_neg hend]
        exact hrun fuel (by omega)

end Step

section BackEdges

variable {α : Type} {succs : α → List α} {s : State α} {root v : α} {fin : List α}

/-- A cycle without reported edges has no finished vertex. -/
theorem Ordered.not_mem_of_isCycle {result : List (α × α)} {c : List α}
    (h : Ordered succs result fin) (hc : IsCycle succs c)
    (hnone : ∀ e ∈ cycleEdges c, e ∉ result) : ∀ w ∈ fin, w ∉ c := by
  induction fin with
  | nil => exact fun w hw => absurd hw (List.not_mem_nil)
  | cons u fin ih =>
    intro w hw hwc
    rcases List.mem_cons.mp hw with rfl | hw
    · -- the next vertex of the cycle finished before `w`
      obtain ⟨v, hv, he⟩ := exists_mem_cycleEdges hwc
      rcases h.1 v (hc.2 _ he) with hr | hf
      · exact hnone _ he hr
      · exact ih h.2 v hf hv
    · exact ih h.2 w hw hwc

/-- The finished vertices are closed under successors, if the targets of reported edges are
finished. -/
theorem Ordered.closed {result : List (α × α)} (h : Ordered succs result fin)
    (hres : ∀ e ∈ result, e.2 ∈ fin) : ∀ u ∈ fin, ∀ v ∈ succs u, v ∈ fin := by
  suffices hsuff : ∀ l, Ordered succs result l → l ⊆ fin → ∀ u ∈ l, ∀ v ∈ succs u, v ∈ fin from
    hsuff fin h (List.Subset.refl _)
  intro l hl hsub
  induction l with
  | nil => exact fun u hu => absurd hu List.not_mem_nil
  | cons a l ih =>
    intro u hu v hv
    rcases List.mem_cons.mp hu with rfl | hu
    · rcases hl.1 v hv with hr | hf
      · exact hres _ hr
      · exact hsub (List.mem_cons_of_mem _ hf)
    · exact ih hl.2 (fun w hw => hsub (List.mem_cons_of_mem _ hw)) u hu v hv

/-- When the search has ended, the finished vertices are all that can be reached. -/
theorem Inv.mem_fin (h : Inv succs root fin s) (hs : s.stack = []) (hv : Reaches succs root v) :
    v ∈ fin := by
  have hvis : ∀ w, w ∈ s.visited ↔ w ∈ fin := by
    intro w
    rw [h.visited_iff w, hs]
    simp
  induction hv with
  | refl => exact (hvis root).mp h.root_mem
  | @tail u v _ huv ih =>
    exact h.ordered.closed (fun e he => (hvis e.2).mp (h.result e he).2.2.2) u ih v huv

/-- Every cycle that can be reached has a reported edge. -/
theorem Inv.exists_mem_of_isCycle (h : Inv succs root fin s) (hs : s.stack = []) {c : List α}
    (hc : IsCycle succs c) {w : α} (hw : w ∈ c) (hreach : Reaches succs root w) :
    ∃ e ∈ cycleEdges c, e ∈ s.result := by
  refine Classical.byContradiction fun hnone => ?_
  refine h.ordered.not_mem_of_isCycle hc (fun e he hr => hnone ⟨e, he, hr⟩) w ?_ hw
  exact h.mem_fin hs hreach

/-- Every reported edge lies on a cycle. -/
theorem Inv.exists_isCycle_of_mem (h : Inv succs root fin s) {e : α × α} (he : e ∈ s.result) :
    e.2 ∈ succs e.1 ∧ Reaches succs root e.1 ∧ ∃ c, IsCycle succs c ∧ e ∈ cycleEdges c := by
  obtain ⟨h1, h2, h3, _⟩ := h.result e he
  exact ⟨h1, h.reaches e.1 h3, exists_isCycle h1 h2⟩

end BackEdges

end DepthFirst
