import DepTaint.FlowDependence
import DepTaint.Tainted

/-!
# TaintLines

The line from which an alloca counts as tainted, over whole runs of the worklist loop.

* `enqueued_line_cases`: the three things one visit can do to an entry.
* `annotated_line`: the entry of an annotated alloca stays its own line.
* `taint_lines`: the entry of any other alloca is the line of a flagged store, or still `allocaMAX`.
-/

namespace DepTaint

/-- Every debug line of the module is less than `allocaMAX`. -/
def Module.LinesBelowMax (M : Module) : Prop :=
  ∀ f ∈ M.functions, ∀ i ∈ M.insts f, M.line i < PDG.allocaMAX

instance (M : Module) : Decidable M.LinesBelowMax :=
  inferInstanceAs (Decidable (∀ f ∈ M.functions, ∀ i ∈ M.insts f, _))

namespace PDG

/-- `u` writes `q`, or is the store selected for a load of `q` in `F`. -/
def Reported (M : Module) (env : Env) (F : FuncId) (q u : InstId) : Prop :=
  M.StoresTo u q ∨ ∃ L ∈ M.insts F, M.kind L = .load (.inst q) ∧
    DDG.candidateSI M env.AA F L = some u

/-- What the entry of `q` can be in a state `s` of a run that starts in `p`: its own line, `allocaMAX`
while no store to it is flagged, or the line of a flagged store. -/
inductive EntryLine (M : Module) (env : Env) (reg : Registry) (F : FuncId) (q : InstId)
    (p s : PropState) : Nat → Prop where
  | annotated : M.Annotated q → EntryLine M env reg F q p s (M.line q)
  | unmarked : ¬ M.Annotated q →
      (SeedsColored M p → ∀ u, M.StoresTo u q → ¬ Flagged reg s u) →
      EntryLine M env reg F q p s allocaMAX
  | store {u : InstId} : (∃ t, M.StoresTo t q ∧ Flagged reg s t) → Reported M env F q u →
      Flagged reg s u → EntryLine M env reg F q p s (M.line u)

section Lines

variable {M : Module} {env : Env} {b : State} {p s s' : PropState} {senFuncSet : List FuncId}
  {F : FuncId} {q u I : InstId} {W adj : InstructionWrapper} {l : Nat}

theorem allocaOf_eq_some {v : Value} : allocaOf M v = some q ↔
    v = .inst q ∧ (M.kind q).isAlloca = true := by
  unfold allocaOf
  cases v with
  | inst j =>
    by_cases hj : (M.kind j).isAlloca = true
    · simp only [hj, if_true, Option.some.injEq, Value.inst.injEq]
      constructor
      · rintro rfl
        exact ⟨rfl, hj⟩
      · exact And.left
    · simp only [hj, if_false, reduceCtorEq, Value.inst.injEq, false_iff, not_and]
      rintro rfl
      exact hj
  | _ => simp

theorem nextLine_cases {c : Bool} (hq : (M.kind q).isAlloca = true) :
    (M.StoresTo I q ∧ c = true ∧ l = allocaMAX ∧
      nextLine M W c I q (some l) = some (M.line I)) ∨
    (M.kind I = .load (.inst q) ∧ l < allocaMAX ∧ ∃ S, W.inst = some S ∧
      (M.kind S).isStore = true ∧ nextLine M W c I q (some l) = some (M.line S)) ∨
    (nextLine M W c I q (some l) = some l ∧ (M.StoresTo I q → c = true → l ≠ allocaMAX)) := by
  unfold nextLine Module.StoresTo
  cases hk : M.kind I with
  | store v ptr =>
    simp only [allocaOf_eq_some, hq, and_true, Option.getD_some]
    by_cases hptr : ptr = .inst q ∧ c = true
    · rw [if_pos hptr]
      by_cases hl : l = allocaMAX
      · exact .inl ⟨⟨v, by rw [hptr.1]⟩, hptr.2, hl, by rw [if_pos hl]⟩
      · exact .inr (.inr ⟨by rw [if_neg hl], fun _ _ => hl⟩)
    · rw [if_neg hptr]
      refine .inr (.inr ⟨rfl, ?_⟩)
      rintro ⟨v', hv⟩ hc
      cases hv
      exact absurd ⟨rfl, hc⟩ hptr
  | load ptr =>
    have hnot : ¬ ∃ v, Kind.load ptr = .store v (.inst q) := by
      rintro ⟨v, hv⟩
      cases hv
    simp only [allocaOf_eq_some, hq, and_true, Option.getD_some]
    by_cases hptr : ptr = .inst q
    · rw [if_pos hptr]
      cases hW : W.inst with
      | none => exact .inr (.inr ⟨rfl, fun h => absurd h hnot⟩)
      | some S =>
        by_cases hc : l < allocaMAX ∧ (M.kind S).isStore = true
        · exact .inr (.inl ⟨by rw [hptr], hc.1, S, rfl, hc.2, by simp [hc]⟩)
        · exact .inr (.inr ⟨by simp only [if_neg hc], fun h => absurd h hnot⟩)
    · exact .inr (.inr ⟨by rw [if_neg hptr], fun h => absurd h hnot⟩)
  | _ =>
    refine .inr (.inr ⟨rfl, ?_⟩)
    rintro ⟨v, hv⟩
    cases hv

/-- What enqueuing `I` from `W` does to the entry of a collected alloca: a store to it that gets
coloured sets an entry that was `allocaMAX`, a load of it that is reached from a store overwrites
any other entry with the line of that store, and nothing else changes it. -/
theorem enqueued_line_cases (hb : Built M env b M.functions) (he : Enqueued M W adj I s s')
    (hadj : adj ∈ b.reg.nodes) (hI : adj.inst = some I) (hF : F ∈ M.functions)
    (hq : Collects M F q) (hold : recorded s.funcMap F q = some l) :
    (M.StoresTo I q ∧ s.coloredInstSet W = true ∧ l = allocaMAX ∧
      recorded s'.funcMap F q = some (M.line I)) ∨
    (M.kind I = .load (.inst q) ∧ l < allocaMAX ∧ ∃ S, W.inst = some S ∧
      (M.kind S).isStore = true ∧ recorded s'.funcMap F q = some (M.line S)) ∨
    (recorded s'.funcMap F q = some l ∧
      (M.StoresTo I q → s.coloredInstSet W = true → l ≠ allocaMAX)) := by
  by_cases hf : F = M.parent I
  · rw [he.recorded, if_pos hf, hold]
    exact nextLine_cases hq.2.1
  · rw [he.recorded, if_neg hf]
    refine .inr (.inr ⟨hold, ?_⟩)
    -- a store to `q` belongs to the function of `q`
    rintro ⟨v, hv⟩
    have hin := ((rep_of_inst hb.graphs.inv hadj hI).mem_list hb.graphs.inv).1
    have hop := (M.operands_ok _ hin.1 I hin.2 (.inst q) (by simp [hv, Kind.operands])).1
    exact absurd (Module.HasInst.unique ⟨hF, hq.1⟩ ⟨hin.1, hop⟩) hf

/-- A link from a store to a load is the one of the DDG. -/
theorem Edge.candidate {S L : InstId} {t : Int} (h : Edge M env (.inst S) (.inst L) t)
    (hS : (M.kind S).isStore = true) :
    ∃ f, M.HasInst f L ∧ DDG.candidateSI M env.AA f L = some S := by
  obtain ⟨f, hf, h⟩ := h
  cases h with
  | returnCall _ _ _ _ hk =>
    rw [hk] at hS
    cases hS
  | data hd _ =>
    cases hd with
    | raw hL _ hc => exact ⟨f, ⟨hf, hL⟩, hc⟩
    | defUse hL ho =>
      have hv := (M.operands_ok f hf L hL _ ho).2
      change (M.kind S).isVoid = false at hv
      cases hk : M.kind S with
      | store => simp [hk, Kind.isVoid] at hv
      | _ => simp [hk, Kind.isStore] at hS
  | control hc =>
    obtain ⟨A, _, _, ht⟩ := hc
    have hterm := isTerminator_of_terminator hf ht
    cases hk : M.kind S with
    | store => simp [hk, Kind.isTerminator] at hterm
    | _ => simp [hk, Kind.isStore] at hS

/-- A store is no seed. -/
theorem store_not_seed (hb : Built M env b M.functions) (hst : Started M b p senFuncSet) {S : InstId}
    (hS : (M.kind S).isStore = true) (hW : W.inst = some S) : W ∉ p.queue := by
  intro hmem
  obtain ⟨a, ha, hseed⟩ := hst.seed_cases hb hmem
  cases a with
  | inst J =>
    rw [(ha.isInst hb.graphs.inv).inst] at hW
    cases hW
    have hv := Module.Annotated.not_void hseed
    cases hk : M.kind S with
    | store => simp [hk, Kind.isVoid] at hv
    | _ => simp [hk, Kind.isStore] at hS
  | entry f => cases hseed
  | global g =>
    rw [(ha.isGlobal hb.graphs.inv).inst] at hW
    cases hW

/-- A load that is enqueued from a store was linked to it as the store selected for the load. -/
theorem Visit.candidate (hb : Built M env b M.functions) (hst : Started M b p senFuncSet)
    (hv : Visit M b.reg p s W adj I) {S : InstId} (hW : W.inst = some S)
    (hS : (M.kind S).isStore = true) :
    Flagged b.reg s S ∧ ∃ f, M.HasInst f I ∧ DDG.candidateSI M env.AA f I = some S := by
  have hinv := hb.graphs.inv
  have hnot := store_not_seed hb hst hS hW
  obtain ⟨k, hk⟩ := hv.dequeues
  have hrepW := rep_of_inst hinv (hk.mem_nodes hst.startable hst.queue_mem) hW
  have hrepI := rep_of_inst hinv hv.mem_nodes hv.inst
  refine ⟨⟨W, hrepW, hv.seed_or_flag.resolve_left hnot⟩, ?_⟩
  have hadj := hv.follows
  rw [hst.pdg] at hadj
  obtain ⟨c, t, hc, _, hedge⟩ := (follows_edge hb hrepW).mp hadj
  cases hc.node_unique hinv hrepI
  exact hedge.candidate hS

/-- A user of an annotated variable is never enqueued from a store: the variable comes first. -/
theorem Visit.not_store (hb : Built M env b M.functions) (hst : Started M b p senFuncSet)
    (hv : Visit M b.reg p s W adj I) (hq : M.Annotated q) (hqa : (M.kind q).isAlloca = true)
    (ho : .inst q ∈ (M.kind I).operands) {S : InstId} (hW : W.inst = some S) :
    (M.kind S).isStore = false := by
  have hinv := hb.graphs.inv
  rw [← Bool.not_eq_true]
  intro hS
  have hnot := store_not_seed hb hst hS hW
  obtain ⟨x, hx⟩ := hb.exists_rep (a := .inst q) ⟨_, trivial, hq.hasInst⟩
  have hrepI := rep_of_inst hinv hv.mem_nodes hv.inst
  have hin := (hrepI.mem_list hinv).1
  have hexit : M.earlyExit q = false := by
    cases hk : M.kind q with
    | alloca => simp [Module.earlyExit, hk]
    | _ => simp [hk, Kind.isAlloca] at hqa
  have hadj : adj ∈ PDG.follows p.pdg x := by
    rw [hst.pdg]
    exact (follows_edge hb hx).mpr ⟨.inst I, _, hrepI, M.dataType_ne_call q I, _, hin.1,
      .data (.defUse hin.2 ho) hexit⟩
  have hflag := hv.seeds_first hnot x ((hst.queue _ x hx).mpr hq) adj hadj
  rw [hv.fresh] at hflag
  cases hflag

/-- The entry of an annotated alloca stays its own line. -/
theorem annotated_line (hb : Built M env b M.functions) (hst : Started M b p senFuncSet)
    (hF : F ∈ M.functions) (hq : Collects M F q) (hann : M.Annotated q)
    (hline : M.line q < allocaMAX) {n : Nat} (h : propagate M b.reg n p = .ok s) :
    recorded s.funcMap F q = some (M.line q) := by
  refine (run_induction (P := fun s : PropState => recorded s.funcMap F q = some (M.line q))
    hst.startable ?_ ?_ ?_ h).2
  · have hFq : F = M.parent q := (Module.HasInst.parent ⟨hF, hq.1⟩).symm
    rw [hst.recorded, if_pos ⟨hFq, hann⟩]
  · intro s1 s2 W queue hs hP
    rw [hs.recorded]
    exact hP
  · intro s1 s2 W adj I hv he hP
    rcases enqueued_line_cases hb he hv.mem_nodes hv.inst hF hq hP with
      ⟨_, _, hl, _⟩ | ⟨hk, _, S, hS, hst', _⟩ | ⟨hkeep, _⟩
    · omega
    · have hno := hv.not_store hb hst hann hq.2.1 (by simp [hk, Kind.operands]) hS
      rw [hst'] at hno
      cases hno
    · exact hkeep

/-- The entry of every collected alloca, in any state of a run. -/
theorem entryLine (hb : Built M env b M.functions) (hst : Started M b p senFuncSet)
    (hF : F ∈ M.functions) (hq : Collects M F q) {n : Nat}
    (h : propagate M b.reg n p = .ok s) :
    ∃ l, recorded s.funcMap F q = some l ∧ EntryLine M env b.reg F q p s l := by
  have hinv := hb.graphs.inv
  refine (run_induction (P := fun s : PropState => ∃ l, recorded s.funcMap F q = some l ∧
    EntryLine M env b.reg F q p s l) hst.startable ?_ ?_ ?_ h).2
  · have hFq : F = M.parent q := (Module.HasInst.parent ⟨hF, hq.1⟩).symm
    by_cases hann : M.Annotated q
    · exact ⟨M.line q, by rw [hst.recorded, if_pos ⟨hFq, hann⟩], .annotated hann⟩
    · refine ⟨allocaMAX, ?_, .unmarked hann ?_⟩
      · rw [hst.recorded, if_neg fun h => hann h.2, hb.recorded hF, if_pos hq]
      · rintro _ u _ ⟨w, _, hw⟩
        rw [hst.flag] at hw
        cases hw
  · rintro s1 s2 W queue hs ⟨l, hl, hP⟩
    have hflag : ∀ u, Flagged b.reg s2 u ↔ Flagged b.reg s1 u := fun u =>
      flagged_of_prepared (s := { s1 with queue := queue }) hs
    refine ⟨l, by rw [hs.recorded]; exact hl, ?_⟩
    cases hP with
    | annotated hann => exact .annotated hann
    | unmarked hann hno =>
      exact .unmarked hann fun hsc u hu hf => hno hsc u hu ((hflag u).mp hf)
    | store hto hu hf =>
      obtain ⟨t, ht, htf⟩ := hto
      exact .store ⟨t, ht, (hflag t).mpr htf⟩ hu ((hflag _).mpr hf)
  · rintro s1 s2 W adj I hv he ⟨l, hl, hcase⟩
    have hflag : ∀ u, Flagged b.reg s2 u ↔ Flagged b.reg s1 u ∨ u = I := fun u =>
      he.flagged_iff hinv hv.mem_nodes hv.inst
    rcases enqueued_line_cases hb he hv.mem_nodes hv.inst hF hq hl with
      ⟨hto, _, _, hnew⟩ | ⟨hk, hlt, S, hS, hSst, hnew⟩ | ⟨hkeep, hne⟩
    · -- the first coloured store to `q`
      have hI := (hflag I).mpr (.inr rfl)
      exact ⟨M.line I, hnew, .store ⟨I, hto, hI⟩ (.inl hto) hI⟩
    · -- a load of `q` takes over the line of the store it is reached from
      obtain ⟨hSf, f, hIf, hc⟩ := hv.candidate hb hst hS hSst
      have hop : .inst q ∈ (M.kind I).operands := by simp [hk, Kind.operands]
      obtain rfl := Module.HasInst.unique ⟨hF, hq.1⟩
        ⟨hIf.1, (M.operands_ok f hIf.1 I hIf.2 _ hop).1⟩
      cases hcase with
      | annotated hann =>
        rw [hv.not_store hb hst hann hq.2.1 hop hS] at hSst
        cases hSst
      | unmarked => exact absurd hlt (lt_irrefl allocaMAX)
      | store hto =>
        obtain ⟨t, ht, htf⟩ := hto
        exact ⟨M.line S, hnew, .store ⟨t, ht, (hflag t).mpr (.inl htf)⟩
          (.inr ⟨I, hIf.2, hk, hc⟩) ((hflag S).mpr (.inl hSf))⟩
    · refine ⟨l, hkeep, ?_⟩
      cases hcase with
      | annotated hann => exact .annotated hann
      | unmarked hann hno =>
        refine .unmarked hann fun hsc u hu hf => ?_
        rcases (hflag u).mp hf with hf | rfl
        · exact hno hsc u hu hf
        · exact hne hu (hv.colored (.inl hsc)) rfl
      | store hto hu hf =>
        obtain ⟨t, ht, htf⟩ := hto
        exact .store ⟨t, ht, (hflag t).mpr (.inl htf)⟩ hu ((hflag _).mpr (.inl hf))

/-- The iteration from `s` to `s'` dequeues the store selected for a load of `q`, flags the load, and
makes the line of the store the entry of `q`. -/
def TakesOver (M : Module) (env : Env) (reg : Registry) (F : FuncId) (q : InstId)
    (s s' : PropState) : Prop :=
  ∃ W S L, s.queue.head? = some W ∧ W.inst = some S ∧ (M.kind S).isStore = true ∧
    L ∈ M.insts F ∧ M.kind L = .load (.inst q) ∧ DDG.candidateSI M env.AA F L = some S ∧
    ¬ Flagged reg s L ∧ Flagged reg s' L ∧ recorded s'.funcMap F q = some (M.line S)

/-- An entry below `allocaMAX` stays, unless a load takes over the line of its store. -/
theorem entry_step (hb : Built M env b M.functions) (hst : Started M b p senFuncSet)
    (hlines : M.LinesBelowMax) (hF : F ∈ M.functions)
    (hq : Collects M F q) {n : Nat} (h : propagate M b.reg n p = .ok s)
    (h1 : iterate M b.reg s = .ok s') (hold : recorded s.funcMap F q = some l)
    (hl : l < allocaMAX) :
    recorded s'.funcMap F q = some l ∨ TakesOver M env b.reg F q s s' := by
  have hinv := hb.graphs.inv
  have hr := running hst.startable h
  rcases iterate_ok h1 with ⟨_, rfl⟩ | ⟨W, queue, hW, _⟩
  · exact .inl hold
  refine visit_induction (P := fun s2 : PropState => recorded s2.funcMap F q = some l ∨
    TakesOver M env b.reg F q s s2) h hr hW h1 ?_ ?_
  · intro s0 hs
    rw [hs.recorded]
    exact .inl hold
  · intro s2 s3 adj I hv hmono he hP
    have hflag : ∀ u, Flagged b.reg s3 u ↔ Flagged b.reg s2 u ∨ u = I := fun u =>
      he.flagged_iff hinv hv.mem_nodes hv.inst
    obtain ⟨l', hl', hlt⟩ : ∃ l', recorded s2.funcMap F q = some l' ∧ l' < allocaMAX := by
      rcases hP with hP | ⟨_, S, L, _, _, _, hL, _, hc, _, _, hP⟩
      · exact ⟨l, hP, hl⟩
      · exact ⟨M.line S, hP, hlines F hF S (DDG.candidateSI_mem hc).1⟩
    rcases enqueued_line_cases hb he hv.mem_nodes hv.inst hF hq hl' with
      ⟨_, _, hmax, _⟩ | ⟨hk, _, S, hS, hSst, hnew⟩ | ⟨hkeep, _⟩
    · omega
    · obtain ⟨_, f, hIf, hc⟩ := hv.candidate hb hst hS hSst
      have hop := (M.operands_ok f hIf.1 I hIf.2 (.inst q) (by simp [hk, Kind.operands])).1
      obtain rfl := Module.HasInst.unique ⟨hF, hq.1⟩ ⟨hIf.1, hop⟩
      refine .inr ⟨W, S, I, by simp [hW], hS, hSst, hIf.2, hk, hc, fun hf => ?_,
        (hflag I).mpr (.inr rfl), hnew⟩
      obtain ⟨w, hw, hwf⟩ := hf
      exact hv.not_flagged hinv ⟨w, hw, hmono w hwf⟩
    · rw [hkeep, ← hl']
      rcases hP with hP | ⟨W', S, L, hq', hS, hSst, hL, hk, hc, hno, hf, hP⟩
      · exact .inl hP
      · exact .inr ⟨W', S, L, hq', hS, hSst, hL, hk, hc, hno, (hflag L).mpr (.inl hf),
          hkeep.trans (hl'.symm.trans hP)⟩

/-- At the end of a run the entries below `allocaMAX` are those of annotated allocas and of allocas
a flagged store writes. -/
theorem Ran.marked_iff {r : Result} (h : Ran M env p r) (hcall : M.AnnotatesNoCall)
    (hlines : M.LinesBelowMax) (hF : F ∈ M.functions)
    (hq : Collects M F q) : (∃ l, recorded r.final.funcMap F q = some l ∧ l < allocaMAX) ↔
      M.Annotated q ∨ ∃ t, M.StoresTo t q ∧ Flagged r.built.reg r.final t := by
  obtain ⟨l, hl, hentry⟩ := entryLine h.built h.started hF hq h.run
  rw [hl]
  cases hentry with
  | annotated hann => simp [hann, hlines F hF q hq.1]
  | unmarked hann hno =>
    have hnone : ¬ ∃ t, M.StoresTo t q ∧ Flagged r.built.reg r.final t := fun ⟨t, ht, hf⟩ =>
      hno (h.started.seedsColored h.built hcall) t ht hf
    simp [hann, hnone]
  | @store u hto _ huf =>
    obtain ⟨w, hw, _⟩ := huf
    have hu := (Rep.mem_list h.built.graphs.inv hw).1
    have hlt := hlines _ hu.1 u hu.2
    simp [hto, hlt]

/-- In every state of a run, the entry of an annotated alloca is its own line. The entry of another
alloca is `allocaMAX` while no store to it is flagged; after that it is the line of a flagged store,
which writes it or is the one selected for a load of it. An entry below `allocaMAX` only changes
when such a load is flagged from its store. -/
theorem taint_lines (hlines : M.LinesBelowMax)
    (hstart : start M .fresh (built M env) = .ok (p, senFuncSet)) {n : Nat}
    (h : propagate M (built M env).reg n p = .ok s) (hF : F ∈ M.functions)
    (hq : Collects M F q) :
    (M.Annotated q → recorded s.funcMap F q = some (M.line q)) ∧
    (¬ M.Annotated q → ∃ l, recorded s.funcMap F q = some l ∧
      ((∀ u, M.StoresTo u q → ¬ Flagged (built M env).reg s u) → l = allocaMAX) ∧
      (M.AnnotatesNoCall → (∃ u, M.StoresTo u q ∧ Flagged (built M env).reg s u) →
        ∃ u, Reported M env F q u ∧ Flagged (built M env).reg s u ∧ l = M.line u)) ∧
    (∀ s' l, iterate M (built M env).reg s = .ok s' → recorded s.funcMap F q = some l →
      l < allocaMAX → recorded s'.funcMap F q = some l ∨
        TakesOver M env (built M env).reg F q s s') := by
  have hb := built_spec M env
  have hst := start_spec hb hstart
  refine ⟨fun hann => annotated_line hb hst hF hq hann (hlines F hF q hq.1) h,
    fun hann => ?_, fun s' l h1 hold hl => entry_step hb hst hlines hF hq h h1 hold hl⟩
  obtain ⟨l, hl, hentry⟩ := entryLine hb hst hF hq h
  refine ⟨l, hl, ?_⟩
  cases hentry with
  | annotated h => exact absurd h hann
  | unmarked _ hno =>
    refine ⟨fun _ => rfl, fun hcall hex => ?_⟩
    obtain ⟨u, hu, hf⟩ := hex
    exact absurd hf (hno (hst.seedsColored hb hcall) u hu)
  | store hto hu huf =>
    refine ⟨fun hno => ?_, fun _ _ => ⟨_, hu, huf, rfl⟩⟩
    obtain ⟨t, ht, hf⟩ := hto
    exact absurd hf (hno t ht)

end Lines

/-! ## Three stores to a variable -/

namespace ThreeStores

def inst (i : InstId) : Instruction :=
  Option.getD (List.lookup i [
    (0, ⟨"a", 1, .alloca (.other 1), 0⟩),
    (1, ⟨"q", 2, .alloca (.other 1), 0⟩),
    (2, ⟨"a1", 3, .bitcast (.inst 0), 0⟩),
    (3, ⟨"", 3, .call (.func 1) [.inst 2] false, 0⟩),
    (4, ⟨"t", 5, .load (.inst 0), 0⟩),
    (5, ⟨"add", 5, .other [.inst 4, .other 1], 0⟩),
    (6, ⟨"", 5, .store (.inst 5) (.inst 1), 0⟩),
    (7, ⟨"t2", 9, .load (.inst 0), 0⟩),
    (8, ⟨"", 9, .store (.inst 7) (.inst 1), 0⟩),
    (9, ⟨"t3", 11, .load (.inst 0), 0⟩),
    (10, ⟨"", 11, .store (.inst 9) (.inst 1), 0⟩),
    (11, ⟨"t4", 12, .load (.inst 1), 0⟩)])
    ⟨"", 13, .ret none, 0⟩

def M : Module where
  inst := inst
  func f := Option.getD (List.lookup f [
    (0, { name := "main", blocks := [⟨0, [0, 1, 2, 3, 4, 5, 6, 7, 8, 9, 10, 11, 12]⟩] })])
    Function.varAnnotation
  functions := [0, 1]
  globals := []
  annotations := []

def env : Env :=
  { Env.straightLine with AA := fun L _ => if L = 11 then .mustAlias else .noAlias }

end ThreeStores

open ThreeStores in
/-- The store in line 9 is flagged before the one in line 5 and sets the entry, which the load in
line 12 raises to 11. -/
theorem entry_raised : M.LinesBelowMax ∧ Collects M 0 1 ∧ ¬ M.Annotated 1 ∧ M.StoresTo 6 1 ∧
    M.line 6 = 5 ∧ ∃ x s s', start M .fresh (built M env) = .ok x ∧
      propagate M (built M env).reg 7 x.1 = .ok s ∧ recorded s.funcMap 0 1 = some 9 ∧
      propagate M (built M env).reg (iterations (built M env).reg x.1) x.1 = .ok s' ∧
      s'.queue = [] ∧ Flagged (built M env).reg s' 6 ∧ recorded s'.funcMap 0 1 = some 11 := by
  obtain ⟨x, hx, h⟩ := exists_ok (x := start M .fresh (built M env))
    (P := fun x => (propagate M (built M env).reg 7 x.1).toOption.any (fun s =>
        recorded s.funcMap 0 1 = some 9) ∧
      (propagate M (built M env).reg (iterations (built M env).reg x.1) x.1).toOption.any fun s =>
        s.queue = [] ∧ recorded s.funcMap 0 1 = some 11 ∧
          (built M env).reg.nodes.any fun w => w.inst = some 6 ∧ s.flag w) (by decide +kernel)
  rw [decide_eq_true_eq] at h
  obtain ⟨s, hs, hline⟩ := exists_ok h.1
  obtain ⟨s', hs', h'⟩ := exists_ok h.2
  rw [decide_eq_true_eq] at hline
  rw [decide_eq_true_eq, List.any_eq_true] at h'
  obtain ⟨hq, hline', w, hw, hf⟩ := h'
  rw [decide_eq_true_eq] at hf
  have hrep := rep_of_inst (built_spec M env).graphs.inv hw hf.1
  exact ⟨by decide, by decide, by decide, ⟨_, rfl⟩, rfl, x, s, s', hx, hs, hline, hs', hq,
    ⟨w, hrep, hf.2⟩, hline'⟩

open ThreeStores in
/-- After four iterations the entry of `q` is the line of a flagged store, and the next iteration
keeps it or lets a load take over. -/
theorem taint_lines_threeStores : ∃ x s, start M .fresh (built M env) = .ok x ∧
    propagate M (built M env).reg 4 x.1 = .ok s ∧
    (∃ u, Reported M env 0 1 u ∧ Flagged (built M env).reg s u ∧ M.line u = 9) ∧
    ∀ s', iterate M (built M env).reg s = .ok s' →
      recorded s'.funcMap 0 1 = some 9 ∨ TakesOver M env (built M env).reg 0 1 s s' := by
  obtain ⟨x, hx, h⟩ := exists_ok (x := start M .fresh (built M env))
    (P := fun x => (propagate M (built M env).reg 4 x.1).toOption.any fun s =>
      recorded s.funcMap 0 1 = some 9 ∧
        (built M env).reg.nodes.any fun w => w.inst = some 8 ∧ s.flag w) (by decide +kernel)
  obtain ⟨s, hs, h⟩ := exists_ok h
  rw [decide_eq_true_eq, List.any_eq_true] at h
  obtain ⟨hline, w, hw, hf⟩ := h
  rw [decide_eq_true_eq] at hf
  have hrep := rep_of_inst (built_spec M env).graphs.inv hw hf.1
  obtain ⟨_, hq, hstep⟩ := taint_lines (F := 0) (q := 1) (by decide) hx hs (by decide) (by decide)
  obtain ⟨l, hl, _, hu⟩ := hq (by decide)
  rw [hline] at hl
  cases hl
  obtain ⟨u, hu, huf, hul⟩ := hu (by decide) ⟨8, ⟨_, rfl⟩, w, hrep, hf.2⟩
  exact ⟨x, s, hx, hs, ⟨u, hu, huf, hul.symm⟩, fun s' h1 => hstep s' 9 h1 hline (by decide)⟩

end PDG
end DepTaint
