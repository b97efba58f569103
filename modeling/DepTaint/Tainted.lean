import DepTaint.Seeds

/-!
# Tainted

The taint of a completed run in terms of the module alone.

* `Tainted`: the nodes that one or more dependences lead to from an annotated node.
* `Ran.flag_iff`: a completed run flags exactly the wrappers of tainted nodes.
* `Ran.colored_iff`, `Ran.taint_iff`: the coloured instructions and the keys of `taintMap`.
-/

namespace DepTaint
namespace PDG

/-- The propagation goes from `a` to `b`. -/
def Step (M : Module) (env : Env) (a b : Node) : Prop :=
  ∃ t, t ≠ DependencyType.call.toInt ∧ Edge M env a b t

/-- One or more dependences lead from an annotated node to `a`. -/
def Tainted (M : Module) (env : Env) (a : Node) : Prop :=
  ∃ x, M.IsSeed x ∧ Relation.TransGen (Step M env) x a

/-- The wrapper of the instruction `i` is flagged. -/
def Flagged (reg : Registry) (s : PropState) (i : InstId) : Prop :=
  ∃ w, Rep reg (.inst i) w ∧ s.flag w = true

/-- The wrapper of the instruction `i` is coloured. -/
def Colored (reg : Registry) (s : PropState) (i : InstId) : Prop :=
  ∃ w, Rep reg (.inst i) w ∧ s.coloredInstSet w = true

section Visits

variable {M : Module} {reg : Registry} {heap : Heap} {p s s' : PropState} {u I : InstId}
  {W adj : InstructionWrapper}

theorem flagged_of_prepared (h : Prepared M W s s') :
    Flagged reg s' u ↔ Flagged reg s u := by
  simp only [Flagged, h.flag]

theorem Enqueued.flagged_iff (hinv : reg.Inv heap M)
    (he : Enqueued M W adj I s s') (hadj : adj ∈ reg.nodes) (hI : adj.inst = some I) :
    Flagged reg s' u ↔ Flagged reg s u ∨ u = I := by
  have hrep := rep_of_inst hinv hadj hI
  simp only [Flagged, he.flag_iff]
  constructor
  · rintro ⟨w, hw, hf⟩
    rcases hf with hf | rfl
    · exact .inl ⟨w, hw, hf⟩
    · cases hw.node_unique hinv hrep
      exact .inr rfl
  · rintro (⟨w, hw, hf⟩ | rfl)
    · exact ⟨w, hw, .inl hf⟩
    · exact ⟨adj, hrep, .inr rfl⟩

theorem Visit.not_flagged (hinv : reg.Inv heap M) (hv : Visit M reg p s W adj I) :
    ¬ Flagged reg s I := by
  rintro ⟨w, hw, hf⟩
  have hrep := rep_of_inst hinv hv.mem_nodes hv.inst
  rw [Rep.inst_unique hw hrep, hv.fresh] at hf
  cases hf

end Visits

section Completed

variable {M : Module} {env : Env} {p : PropState} {r : Result} {a b : Node}

theorem Tainted.of_seed (ha : M.IsSeed a) (h : Step M env a b) : Tainted M env b :=
  ⟨a, ha, .single h⟩

theorem Tainted.step (ha : Tainted M env a) (h : Step M env a b) : Tainted M env b := by
  obtain ⟨x, hx, hxa⟩ := ha
  exact ⟨x, hx, hxa.tail h⟩

/-- A completed run flags the wrappers of the tainted nodes. -/
theorem Ran.flag_iff (h : Ran M env p r) {w : InstructionWrapper} (hw : Rep r.built.reg a w) :
    r.final.flag w = true ↔ Tainted M env a := by
  have hb := h.built
  have hst := h.started
  have hfollows : ∀ {c x y}, Rep r.built.reg c x → (Follows p.pdg x y ↔
      ∃ d, Rep r.built.reg d y ∧ Step M env c d) := by
    intro c x y hx
    rw [hst.pdg]
    refine (follows_edge hb hx).trans (exists_congr fun d => ?_)
    simp only [Step, exists_and_left]
  rw [(completed hst.startable hb.graphs.inv.nodes_nodup h.run).flag]
  constructor
  · rintro ⟨x, hx, hxw⟩
    obtain ⟨c, hc, hseed⟩ := hst.seed_cases hb hx
    -- every wrapper on the way stands for a node
    obtain ⟨d, hd, hcd⟩ : ∃ d, Rep r.built.reg d w ∧ Relation.TransGen (Step M env) c d := by
      clear hw
      induction hxw with
      | single hy =>
        obtain ⟨d, hd, hs⟩ := (hfollows hc).mp hy
        exact ⟨d, hd, .single hs⟩
      | tail _ hz ih =>
        obtain ⟨d, hd, hcd⟩ := ih
        obtain ⟨e, he, hs⟩ := (hfollows hd).mp hz
        exact ⟨e, he, hcd.tail hs⟩
    rw [hw.node_unique hb.graphs.inv hd]
    exact ⟨c, hseed, hcd⟩
  · rintro ⟨c, hseed, hca⟩
    obtain ⟨_, ⟨_, _, hedge⟩, -⟩ := Relation.TransGen.head'_iff.mp hca
    obtain ⟨x, hx⟩ := hb.exists_rep hedge.hasNode.1
    refine ⟨x, (hst.queue c x hx).mpr hseed, ?_⟩
    induction hca generalizing w with
    | single hs => exact .single ((hfollows hx).mpr ⟨_, hw, hs⟩)
    | tail _ hs ih =>
      obtain ⟨_, _, he⟩ := id hs
      obtain ⟨y, hy⟩ := hb.exists_rep he.hasNode.1
      exact (ih hy).tail ((hfollows hy).mpr ⟨_, hw, hs⟩)

theorem Ran.flagged_iff (h : Ran M env p r) {i : InstId} :
    Flagged r.built.reg r.final i ↔ (∃ f, M.HasInst f i) ∧ Tainted M env (.inst i) := by
  constructor
  · rintro ⟨w, hw, hf⟩
    exact ⟨⟨_, (Rep.mem_list h.built.graphs.inv hw).1⟩, (h.flag_iff hw).mp hf⟩
  · rintro ⟨⟨f, hi⟩, ht⟩
    obtain ⟨w, hw⟩ := h.built.exists_rep (a := .inst i) ⟨f, trivial, hi⟩
    exact ⟨w, hw, (h.flag_iff hw).mpr ht⟩

/-- The coloured instructions are the annotated and the flagged ones. -/
theorem Ran.colored_iff (h : Ran M env p r) (hcall : M.AnnotatesNoCall) {i : InstId} :
    Colored r.built.reg r.final i ↔ M.Annotated i ∨ Flagged r.built.reg r.final i := by
  have hb := h.built
  have hst := h.started
  have hcolored := (completed hst.startable hb.graphs.inv.nodes_nodup h.run).colored
    (hst.seedsColored hb hcall)
  constructor
  · rintro ⟨w, hw, hc⟩
    rcases (hcolored w).mp hc with hq | hf
    · exact .inl ((hst.queue _ w hw).mp hq)
    · exact .inr ⟨w, hw, hf⟩
  · rintro (hann | ⟨w, hw, hf⟩)
    · obtain ⟨w, hw⟩ := hb.exists_rep (a := .inst i) ⟨_, trivial, hann.hasInst⟩
      exact ⟨w, hw, (hcolored w).mpr (.inl ((hst.queue _ w hw).mpr hann))⟩
    · exact ⟨w, hw, (hcolored w).mpr (.inr hf)⟩

/-- So are the keys of `taintMap`. -/
theorem Ran.taint_iff (h : Ran M env p r) (hcall : M.AnnotatesNoCall) {i : InstId} :
    (r.final.taintMap i).isSome = true ↔ M.Annotated i ∨ Flagged r.built.reg r.final i := by
  have hst := h.started
  refine (run_induction (P := fun s : PropState => (s.taintMap i).isSome = true ↔
    M.Annotated i ∨ Flagged r.built.reg s i) hst.startable ?_ ?_ ?_ h.run).2
  · have hno : ¬ Flagged r.built.reg p i := by
      rintro ⟨w, _, hf⟩
      rw [hst.flag] at hf
      cases hf
    rw [hst.taint]
    by_cases hann : M.Annotated i <;> simp [hann, hno]
  · intro s s0 W queue hs hP
    rw [hs.taintMap, flagged_of_prepared hs]
    exact hP
  · intro s1 s2 W adj I hv he hP
    rw [he.flagged_iff h.built.graphs.inv hv.mem_nodes hv.inst]
    by_cases hi : i = I
    · subst hi
      have hc := hv.colored (.inl (hst.seedsColored h.built hcall))
      simp [he.taint_isSome (.inr hc)]
    · rw [he.taint_ne i hi, hP]
      simp [hi]

end Completed

end PDG
end DepTaint
