import DepTaint.ModuleGraphs

/-!
# ModuleLoop

The loop over the functions of a module. `Built M env s done` is its invariant: what the state `s`
holds once the functions in `done` are processed.

* `processFunction_spec`: processing the next function keeps the invariant.
* `build_spec`: from the fresh state the construction does not fault, and establishes the invariant
  for the whole module.
* `Built.pdg_iff`: the finished PDG links the wrappers of two nodes exactly as `Edge` says.
-/

namespace DepTaint
namespace PDG

/-- The invariant of the module loop. -/
structure Built (M : Module) (env : Env) (s : State) (done : List FuncId) : Prop where
  graphs : Graphs M env s.reg s.funcMap s.ddg s.cdg done
  access : ∀ w, s.access w = true → ∃ f ∈ done, w ∈ s.reg.funcInstWList f
  pdg : ∀ p q t, s.pdg.HasLink p q t ↔ ∃ f ∈ done, FuncLink M env s.reg f p q t
  sensitiveValues : ∀ v, v ∈ s.sensitiveValues ↔ ∃ f ∈ done, ∃ i ∈ M.insts f, v ∈ M.annotates i

variable {M : Module} {env : Env}

/-! ## Merging the graphs of one function -/

section Merge

variable {reg reg' : Registry} {funcMap : FuncMap} {ddg cdg : DependencyGraph WrapperPtr}
  {done post : List FuncId} {F : FuncId}

/-- The members of `funcInstWList[F]`. -/
theorem mem_list_cases {heap : Heap} (hinv : reg.Inv heap M) {w : InstructionWrapper}
    (hw : w ∈ reg.funcInstWList F) :
    (∃ i ∈ M.insts F, Rep reg (.inst i) w) ∨ Rep reg (.entry F) w := by
  obtain ⟨_, ⟨i, hi, rfl⟩ | he⟩ := hinv.list_mem F w hw
  · exact .inl ⟨i, (hinv.instMap_inst i _ hi).1.2, hi⟩
  · exact .inr ⟨hw, he.type⟩

theorem dataType_eq {i j : InstId} {w w' : InstructionWrapper} (hi : IsInst M i w)
    (hj : IsInst M j w') : dataType M w w' = M.dataType i j := by
  simp [dataType, Module.dataType, InstructionWrapper.isa, hi.inst, hj.inst, hj.type]

theorem isTerminator_of_terminator {f : FuncId} (hf : f ∈ M.functions) {A : BlockId} {i : InstId}
    (h : M.terminator f A = some i) : (M.kind i).isTerminator = true := by
  obtain ⟨B, hB, hA⟩ : ∃ B ∈ (M.func f).blocks, M.blockInsts f A = B.insts := by
    unfold Module.terminator Module.blockInsts at *
    cases hb : (M.func f).blocks.find? fun B => B.id == A with
    | none => simp [hb] at h
    | some B => exact ⟨B, List.mem_of_find?_eq_some hb, by simp⟩
  obtain ⟨t, ht, hterm, _⟩ := M.blocks_wf f hf B hB
  have : t = i := by
    rw [Module.terminator, hA] at h
    exact Option.some.inj (ht.symm.trans h)
  subst this
  exact hterm

/-- A terminator is no call, so the merge does not skip it. -/
theorem earlyExit_of_terminator {f : FuncId} (hf : f ∈ M.functions) {A : BlockId} {i : InstId}
    (h : M.terminator f A = some i) : M.earlyExit i = false := by
  have hterm := isTerminator_of_terminator hf h
  cases hk : M.kind i with
  | call _ _ _ => simp [hk, Kind.isTerminator] at hterm
  | _ => simp [Module.earlyExit, hk]

section Current

-- `F` has just been registered, and the merge for it runs
variable (h : Graphs M env reg funcMap ddg cdg (done ++ [F]))
  (hx : M.functions = done ++ F :: post) {p q : WrapperPtr} {t : Int} {w w' : InstructionWrapper}

include hx

theorem listedUpTo_current (g : FuncId) : M.ListedUpTo g F ↔ g ∈ done ++ [F] := by
  rw [Module.listedUpTo_iff hx]
  simp

/-- An instruction of `F` belongs to no other function. -/
theorem eq_current {f : FuncId} (hf : f ∈ done ++ [F]) {j : InstId} (hj : j ∈ M.insts F)
    (hj' : j ∈ M.insts f) : f = F :=
  Module.HasInst.unique ⟨mem_functions_of_done hx hf, hj'⟩ ⟨by simp [hx], hj⟩

include h

theorem Graphs.mem_list {i : InstId} (hi : i ∈ M.insts F) (hw : Rep reg (.inst i) w) :
    w ∈ reg.funcInstWList F := by
  have hl := (hw.mem_list h.inv).2
  rwa [Module.HasInst.parent ⟨by simp [hx], hi⟩] at hl

omit hx in
theorem Graphs.mem_insts {i : InstId} (hw : w ∈ reg.funcInstWList F) (hi : Rep reg (.inst i) w) :
    i ∈ M.insts F := by
  rcases mem_list_cases h.inv hw with ⟨j, hj, hr⟩ | hr
  · cases hr.node_unique h.inv hi
    exact hj
  · cases hr.node_unique h.inv hi

/-- A callee that is listed later still has what its constructor left. -/
theorem Graphs.todo_of_not_listed {i : InstId} {g : FuncId} (hi : i ∈ M.insts F)
    (hc : M.Calls i g) (hl : ¬ M.ListedUpTo g F) : funcMap g = some (.new env.garbage) :=
  h.todo g (hc.mem_functions (by simp [hx]) hi)
    (.inl fun hg => hl ((listedUpTo_current hx g).mpr hg))

theorem CallLink.funcLink {i : InstId} (hi : i ∈ M.insts F) (hw : Rep reg (.inst i) w)
    (hcall : CallLink M reg funcMap w i p q t) : FuncLink M env reg F p q t := by
  cases hcall with
  | @entry g fw hc hfw =>
    by_cases hl : M.ListedUpTo g F
    · obtain ⟨fw', root, hfw', _, hroot, he⟩ :=
        (h.processed g ((listedUpTo_current hx g).mp hl) hc.2.1).wrapper
      rw [hfw] at hfw'
      cases hfw'
      rw [he]
      exact .edge (.callEntry hi hc hl) hw hroot
    · have hm := h.todo_of_not_listed hx hi hc hl
      rw [hfw] at hm
      cases hm
      exact .late hi hc hl hw
  | @ret r g fw v n hc hfw hr hv hn hnr =>
    by_cases hl : M.ListedUpTo g F
    · obtain ⟨fw', _, hfw', hcoll, _, _⟩ :=
        (h.processed g ((listedUpTo_current hx g).mp hl) hc.2.1).wrapper
      rw [hfw] at hfw'
      cases hfw'
      exact .edge (.returnCall hi hc hl ((hcoll.returns r).mp hr).1 hv)
        (rep_of_inst h.inv hn hnr) hw
    · have hm := h.todo_of_not_listed hx hi hc hl
      rw [hfw] at hm
      cases hm
      cases hr

theorem PairLink.funcLink (hw : w ∈ reg.funcInstWList F) (hcont : continues M w = false)
    (hpair : PairLink M reg ddg cdg F w p q t) : FuncLink M env reg F p q t := by
  cases hpair with
  | @global w2 gi ptr hw2 hptr hgi hv =>
    rcases mem_list_cases h.inv hw2 with ⟨j, hj, hr⟩ | hr
    · have hij := hr.isInst h.inv
      obtain ⟨_, g, hg⟩ := h.inv.global_mem gi hgi
      rw [hg.value] at hv
      cases hv
      have hk : M.kind j = .load (.global g) := by
        simp only [loadPointer, hij.type, hij.inst, if_true, Option.bind_some] at hptr
        split at hptr
        · rename_i ptr hk
          cases hptr
          exact hk
        · cases hptr
      have hrg : Rep reg (.global g) gi := ⟨hgi, hg.value⟩
      exact .edge (.globalLoad hj hk ((h.globals g).mp ⟨gi, hrg⟩)) hrg hr
    · simp [loadPointer, (hr.isEntry h.inv).type] at hptr
  | @data w2 hw2 htype hdep =>
    obtain ⟨a, hb⟩ := exists_rep h.inv (h.inv.list_mem F w2 hw2).1
    rcases mem_list_cases h.inv hw with ⟨i, hi, hr⟩ | hr
    · obtain ⟨t', ht'⟩ := DependencyGraph.depends_iff.mp hdep
      obtain ⟨i', j, he, rfl, f, hf, hd⟩ := (h.ddg_iff hr hb).mp ht'
      cases he
      have hf' := mem_functions_of_done hx hf
      obtain rfl := eq_current hx hf hi (mem_insts_of_edge hf' hd).1
      rw [dataType_eq (hr.isInst h.inv) (hb.isInst h.inv)]
      have hne : M.earlyExit i = false := by
        simpa [continues, (hr.isInst h.inv).inst] using hcont
      exact .edge (.data hd hne) hr hb
    · rw [(hr.isEntry h.inv).type] at htype
      cases htype
  | @control w2 hw2 _ _ hdep =>
    obtain ⟨b, hb⟩ := exists_rep h.inv (h.inv.list_mem F w2 hw2).1
    obtain ⟨a, ha⟩ := exists_rep h.inv (h.inv.list_mem F w hw).1
    obtain ⟨j, rfl, f, hf, hc⟩ := (h.cdg_depends_iff ha hb).mp hdep
    have hjF := h.mem_insts hw2 hb
    rcases hc with ⟨rfl, hc⟩ | ⟨i, rfl, hc⟩
    · obtain rfl := eq_current hx hf hjF hc.mem_insts
      exact .edge (.entryControl hc) ha hb
    · obtain rfl := eq_current hx hf hjF hc.mem_insts.2
      exact .edge (.control hc) ha hb

theorem FuncEdge.nodeLink (hdef : (M.func F).isDeclaration = false) {a b : Node}
    (hedge : FuncEdge M env F a b t) (ha : Rep reg a w) (hb : Rep reg b w') :
    ∃ n ∈ reg.funcInstWList F, NodeLink M reg funcMap ddg cdg F n (.to w) (.to w') t := by
  have hF : F ∈ M.functions := by simp [hx]
  have hmemF : F ∈ done ++ [F] := by simp
  cases hedge with
  | @callEntry i g hi hc hl =>
    have hg := h.processed g ((listedUpTo_current hx g).mp hl) hc.2.1
    obtain ⟨fw, root, hfw, _, hroot, he⟩ := hg.wrapper
    refine ⟨w, h.mem_list hx hi ha, .call (ha.isInst h.inv).inst ?_⟩
    rw [hg.root_unique w' root hb hroot, ← he]
    exact .entry hc hfw
  | @returnCall i r g v hi hc hl hr hv =>
    obtain ⟨fw, _, hfw, hcoll, _, _⟩ :=
      (h.processed g ((listedUpTo_current hx g).mp hl) hc.2.1).wrapper
    exact ⟨w', h.mem_list hx hi hb, .call (hb.isInst h.inv).inst
      (.ret hc hfw ((hcoll.returns r).mpr ⟨hr, _, hv⟩) hv (ha.mem_nodes h.inv)
        (ha.isInst h.inv).inst)⟩
  | @globalLoad j g hj hk hg =>
    -- the loop over the pairs visits the load with every first wrapper, the root among them
    obtain ⟨_, root, _, _, hroot, _⟩ := (h.processed F hmemF hdef).wrapper
    have hcont : continues M root = false := by simp [continues, (hroot.isEntry h.inv).inst]
    have hij := hb.isInst h.inv
    exact ⟨root, hroot.1, .pair hcont (.global (h.mem_list hx hj hb)
      (by simp [loadPointer, hij.type, hij.inst, hk]) ha.1 ha.2)⟩
  | @data i j t hd hne =>
    obtain ⟨hi, hj⟩ := mem_insts_of_edge hF hd
    have hdep : ddg.depends (.to w) (.to w') = true :=
      DependencyGraph.depends_iff.mpr ⟨t, (h.ddg_iff ha hb).mpr ⟨i, j, rfl, rfl, F, hmemF, hd⟩⟩
    have hii := ha.isInst h.inv
    refine ⟨w, h.mem_list hx hi ha, .pair (by simpa [continues, hii.inst] using hne) ?_⟩
    rw [← dataType_eq hii (hb.isInst h.inv)]
    exact .data (h.mem_list hx hj hb) hii.type hdep
  | @control i j hc =>
    have hdep : cdg.depends (.to w) (.to w') = true :=
      (h.cdg_depends_iff ha hb).mpr ⟨j, rfl, F, hmemF, .inr ⟨i, rfl, hc⟩⟩
    obtain ⟨hiF, hjF⟩ := hc.mem_insts
    obtain ⟨A, _, _, hi⟩ := hc
    have hii := ha.isInst h.inv
    refine ⟨w, h.mem_list hx hiF ha, .pair ?_
      (.control (h.mem_list hx hjF hb) (.inl hii.type) ?_ hdep)⟩
    · simpa [continues, hii.inst] using earlyExit_of_terminator hF hi
    · rw [(hb.isInst h.inv).inst]
      rfl
  | @entryControl j hc =>
    have hdep : cdg.depends (.to w) (.to w') = true :=
      (h.cdg_depends_iff ha hb).mpr ⟨j, rfl, F, hmemF, .inl ⟨rfl, hc⟩⟩
    refine ⟨w, ha.1, .pair (by simp [continues, (ha.isEntry h.inv).inst])
      (.control (h.mem_list hx hc.mem_insts hb) (.inr ha.2) ?_ hdep)⟩
    rw [(hb.isInst h.inv).inst]
    rfl

/-- The merge for `F` adds exactly the links of `FuncLink`. -/
theorem nodeLink_iff (hdef : (M.func F).isDeclaration = false) :
    (∃ n ∈ reg.funcInstWList F, NodeLink M reg funcMap ddg cdg F n p q t) ↔
      FuncLink M env reg F p q t := by
  constructor
  · rintro ⟨n, hn, hlink⟩
    cases hlink with
    | @call i hi hcall =>
      have hrep := rep_of_inst h.inv (h.inv.list_mem F n hn).1 hi
      exact CallLink.funcLink h hx (h.mem_insts hn hrep) hrep hcall
    | pair hcont hpair => exact PairLink.funcLink h hx hn hcont hpair
  · intro hlink
    cases hlink with
    | edge hedge ha hb => exact FuncEdge.nodeLink h hx hdef hedge ha hb
    | @late i g w hi hc hl ha =>
      exact ⟨w, h.mem_list hx hi ha, .call (ha.isInst h.inv).inst
        (.entry hc (h.todo_of_not_listed hx hi hc hl))⟩

end Current

/-- The links of a processed function stay those of its nodes. -/
theorem FuncLink.frame (hx : M.functions = done ++ F :: post)
    (hframe : ∀ a w, M.HasNode (· ∈ done) a → (Rep reg a w ↔ Rep reg' a w)) {f : FuncId}
    (hf : f ∈ done) {p q : WrapperPtr} {t : Int} (h : FuncLink M env reg f p q t) :
    FuncLink M env reg' f p q t := by
  have hfn := mem_functions_of_done hx (List.mem_append_left [F] hf)
  have hmono : ∀ a, M.HasNode (M.ListedUpTo · f) a → M.HasNode (· ∈ done) a := fun a =>
    Module.HasNode.mono fun g hg => hg.mem_done hx hf
  cases h with
  | @edge a b w w' t hedge ha hb =>
    obtain ⟨hna, hnb⟩ := hedge.hasNode hfn
    exact .edge hedge ((hframe a w (hmono a hna)).mp ha) ((hframe b w' (hmono b hnb)).mp hb)
  | @late i g w hi hc hl ha =>
    exact .late hi hc hl ((hframe (.inst i) w ⟨f, hf, hfn, hi⟩).mp ha)

end Merge

/-- A function that adds a link has an instruction. -/
theorem FuncLink.exists_inst (hF : F ∈ M.functions) {p q : WrapperPtr} {t : Int}
    (h : FuncLink M env reg F p q t) : ∃ i, i ∈ M.insts F := by
  cases h with
  | late hi _ _ _ => exact ⟨_, hi⟩
  | edge hedge _ _ =>
    cases hedge with
    | callEntry hi _ _ => exact ⟨_, hi⟩
    | returnCall hi _ _ _ _ => exact ⟨_, hi⟩
    | globalLoad hj _ _ => exact ⟨_, hj⟩
    | data hd _ => exact ⟨_, (mem_insts_of_edge hF hd).1⟩
    | control hc => exact ⟨_, hc.mem_insts.1⟩
    | entryControl hc => exact ⟨_, hc.mem_insts⟩

theorem insts_of_declaration {f : FuncId} (h : (M.func f).isDeclaration = true) :
    M.insts f = [] := by
  rw [List.eq_nil_iff_forall_not_mem]
  intro i hi
  rw [Module.defined_of_mem_insts hi] at h
  cases h

/-- A declared function adds nothing. -/
theorem Built.declaration {s : State} {done : List FuncId} {F : FuncId} (h : Built M env s done)
    (hF : F ∈ M.functions) (hdecl : (M.func F).isDeclaration = true) :
    Built M env s (done ++ [F]) := by
  have hnil := insts_of_declaration hdecl
  have hsplit : ∀ P : FuncId → Prop, ¬ P F → ((∃ f ∈ done ++ [F], P f) ↔ ∃ f ∈ done, P f) := by
    intro P hP
    simp [or_and_right, exists_or, hP]
  refine ⟨⟨h.graphs.inv, h.graphs.globals, h.graphs.global_unique, ?_, ?_, ?_, h.graphs.funcMap,
    fun p q t => ?_, fun p q t => ?_⟩, fun w hw => ?_, fun p q t => ?_, fun v => ?_⟩
  · intro f hf
    by_cases hdone : f ∈ done
    · refine h.graphs.untouched f (hf.imp_left fun hn => ?_)
      exact absurd (List.mem_append_left _ hdone) hn
    · exact h.graphs.untouched f (.inl hdone)
  · intro f hf hnot
    by_cases hdone : f ∈ done
    · refine h.graphs.todo f hf (hnot.imp_left fun hn => ?_)
      exact absurd (List.mem_append_left _ hdone) hn
    · exact h.graphs.todo f hf (.inl hdone)
  · intro f hf hdef
    rcases List.mem_append.mp hf with hf | hf
    · exact h.graphs.processed f hf hdef
    · rw [List.mem_singleton.mp hf, hdecl] at hdef
      cases hdef
  · rw [h.graphs.ddg, hsplit]
    intro hl
    cases hl with
    | raw hL _ => simp [hnil] at hL
    | defUse hi _ => simp [hnil] at hi
  · rw [h.graphs.cdg, hsplit]
    rintro ⟨_, _, hl⟩
    cases hl with
    | root hj => simpa [hnil] using hj.mem_insts
    | edge hj => simpa [hnil] using hj.mem_insts
  · obtain ⟨f, hf, hl⟩ := h.access w hw
    exact ⟨f, List.mem_append_left _ hf, hl⟩
  · rw [h.pdg, hsplit]
    intro hl
    obtain ⟨i, hi⟩ := hl.exists_inst hF
    simp [hnil] at hi
  · rw [h.sensitiveValues, hsplit]
    simp [hnil]

/-- The lists of two functions have no wrapper in common. -/
theorem list_unique {reg : Registry} (hinv : reg.Inv env.heap M) {f F : FuncId}
    (hf : f ∈ M.functions) (hF : F ∈ M.functions) {w : InstructionWrapper}
    (hwf : w ∈ reg.funcInstWList f) (hwF : w ∈ reg.funcInstWList F) : f = F := by
  rcases mem_list_cases hinv hwf with ⟨i, hi, hr⟩ | hr
  · rcases mem_list_cases hinv hwF with ⟨j, hj, hr'⟩ | hr'
    · cases hr.node_unique hinv hr'
      exact Module.HasInst.unique ⟨hf, hi⟩ ⟨hF, hj⟩
    · cases hr.node_unique hinv hr'
  · rcases mem_list_cases hinv hwF with ⟨j, hj, hr'⟩ | hr'
    · cases hr.node_unique hinv hr'
    · cases hr.node_unique hinv hr'
      rfl

/-- The instructions of the wrappers in the list of `F` are those of `F`. -/
theorem exists_mem_list_iff {reg : Registry} (hinv : reg.Inv env.heap M) {F : FuncId}
    (hF : F ∈ M.functions) (hreg : reg.Registered M F) {P : InstId → Prop} :
    (∃ w ∈ reg.funcInstWList F, ∃ i, w.inst = some i ∧ P i) ↔ ∃ i ∈ M.insts F, P i := by
  constructor
  · rintro ⟨w, hw, i, hi, hv⟩
    rcases mem_list_cases hinv hw with ⟨j, hj, hr⟩ | hr
    · rw [(hr.isInst hinv).inst] at hi
      cases hi
      exact ⟨i, hj, hv⟩
    · rw [(hr.isEntry hinv).inst] at hi
      cases hi
  · rintro ⟨i, hi, hv⟩
    obtain ⟨w, hw⟩ := hreg i hi
    have hl := (Rep.mem_list hinv hw).2
    rw [Module.HasInst.parent ⟨hF, hi⟩] at hl
    exact ⟨w, hl, i, (Rep.isInst hinv hw).inst, hv⟩

/-- One iteration of the module loop does not fault, and keeps the invariant. -/
theorem processFunction_spec {s : State} {done post : List FuncId} {F : FuncId}
    (h : Built M env s done) (hx : M.functions = done ++ F :: post) :
    ∃ s', processFunction M env s F = .ok s' ∧ Built M env s' (done ++ [F]) := by
  have hF : F ∈ M.functions := by simp [hx]
  have hnot := Module.notMem_done hx
  unfold processFunction
  by_cases hdecl : (M.func F).isDeclaration = true
  · rw [if_pos hdecl]
    exact ⟨s, rfl, h.declaration hF hdecl⟩
  · rw [if_neg hdecl]
    rw [Bool.not_eq_true] at hdecl
    have hlist := h.graphs.untouched F (.inl hnot)
    have hmap := h.graphs.todo F hF (.inl hnot)
    obtain ⟨c, root, hc, hinv, hgrow, hreg, hroot, hcmap, hddg, hcdg⟩ :=
      graphs_spec h.graphs.inv hF hlist
    simp only [FuncMap.get_of_some hmap]
    have hfw : Collected M F
        { (M.insts F).foldl (collect M) (.new env.garbage) with entryW := .to root } :=
      ⟨(collect_spec F).returns, (collect_spec F).allocas⟩
    have hg := h.graphs.step hx hdecl hinv hgrow hreg hroot hfw rfl hddg hcdg
    rw [← hcmap] at hg
    have hset : (c.reg.funcInstWList F).foldl setEntry c.funcMap = c.funcMap := by
      refine setEntry_spec (F := F) (by rw [hcmap, FuncMap.set_apply, if_pos rfl])
        rfl fun w hw ht => ?_
      have hrep : Rep c.reg (.entry F) w := ⟨hw, ht⟩
      exact ⟨(hroot w).mp hrep, (hrep.isEntry hinv).func⟩
    have hacc : ∀ w ∈ c.reg.funcInstWList F, s.access w = false := by
      intro w hw
      by_contra hne
      rw [Bool.not_eq_false] at hne
      obtain ⟨f, hf, hl⟩ := h.access w hne
      have hfn := mem_functions_of_done hx (List.mem_append_left [F] hf)
      exact hnot (list_unique hinv hfn hF (hgrow.list_mono f w hl) hw ▸ hf)
    obtain ⟨m, hm, hmacc, hmsen, hml⟩ := merge_spec (F := F) (DDG.runOnFunction env.heap M env.AA
      ⟨s.reg.constructInstMap env.heap M F, s.ddg⟩ F).ddg c.cdg
      (s := ⟨s.pdg, s.access, s.sensitiveValues⟩) hinv
      (fun i hi g hcall => hg.funcMap g (hcall.mem_functions hF hi)) hacc
    refine ⟨_, by simp only [bind, Except.bind, hc, hset, hm]; rfl, hg, fun w hw => ?_,
      fun p q t => ?_, fun v => ?_⟩
    · by_cases hwF : w ∈ c.reg.funcInstWList F
      · exact ⟨F, by simp, hwF⟩
      · obtain ⟨f, hf, hl⟩ := h.access w ((hmacc w hwF).symm.trans hw)
        exact ⟨f, List.mem_append_left _ hf, hgrow.list_mono f w hl⟩
    · have hframe : ∀ a w, M.HasNode (· ∈ done) a → (Rep c.reg a w ↔ Rep s.reg a w) :=
        fun a w ha => rep_frame hgrow hF hnot ha
      simp only [hml, h.pdg, nodeLink_iff hg hx hdecl, List.mem_append, List.mem_singleton,
        or_and_right, exists_or, exists_eq_left]
      refine or_congr_left ⟨?_, ?_⟩
      · rintro ⟨f, hf, hl⟩
        exact ⟨f, hf, hl.frame hx (fun a w ha => (hframe a w ha).symm) hf⟩
      · rintro ⟨f, hf, hl⟩
        exact ⟨f, hf, hl.frame hx hframe hf⟩
    · simp only [hmsen, h.sensitiveValues, List.mem_append, List.mem_singleton, or_and_right,
        exists_or, exists_eq_left]
      exact or_congr_right (exists_mem_list_iff hinv hF hreg)

/-! ## The whole construction -/

/-- The GLOBAL_VALUE wrappers are registered before the first function. -/
theorem constructGlobals_spec (M : Module) (env : Env) :
    let reg := constructGlobals M env .empty
    reg.Inv env.heap M ∧ (∀ g, (∃ w, Rep reg (.global g) w) ↔ g ∈ M.globals) ∧
      (∀ g w w', Rep reg (.global g) w → Rep reg (.global g) w' → w = w') ∧
      (∀ f, reg.funcInstWList f = []) ∧ ∀ k, reg.instMap k = none := by
  refine foldl_invariant (P := fun pre (reg : Registry) => reg.Inv env.heap M ∧
    (∀ g, (∃ w, Rep reg (.global g) w) ↔ g ∈ pre) ∧
    (∀ g w w', Rep reg (.global g) w → Rep reg (.global g) w' → w = w') ∧
    (∀ f, reg.funcInstWList f = []) ∧ ∀ k, reg.instMap k = none)
    ⟨Registry.inv_empty, by simp [Rep, Registry.empty], by simp [Rep, Registry.empty],
      fun _ => rfl, fun _ => rfl⟩ ?_
  rintro pre g post reg hx ⟨hinv, hmem, huniq, hlist, hmap⟩
  have hnot : g ∉ pre := by
    have hnd := M.globals_nodup
    rw [hx, List.nodup_append] at hnd
    exact fun h => hnd.2.2 g h g (by simp) rfl
  have hrep : ∀ g' w, Rep (reg.insertGlobal (reg.globalWrapper env.heap g)) (.global g') w ↔
      (g' = g ∧ w = reg.globalWrapper env.heap g) ∨ Rep reg (.global g') w := by
    intro g' w
    simp only [Rep, Registry.insertGlobal, Registry.mem_insertNode]
    constructor
    · rintro ⟨rfl | hw, hv⟩
      · simp only [Registry.globalWrapper, Option.some.injEq, Value.global.injEq] at hv
        exact .inl ⟨hv.symm, rfl⟩
      · exact .inr ⟨hw, hv⟩
    · rintro (⟨rfl, rfl⟩ | ⟨hw, hv⟩)
      · exact ⟨.inl rfl, rfl⟩
      · exact ⟨.inr hw, hv⟩
  refine ⟨hinv.insertGlobal g, fun g' => ?_, fun g' w w' hw hw' => ?_, hlist, hmap⟩
  · simp only [hrep, exists_or, hmem, exists_and_left, exists_eq, and_true, List.mem_append,
      List.mem_singleton]
    exact or_comm
  · rw [hrep] at hw hw'
    rcases hw with ⟨rfl, rfl⟩ | hw <;> rcases hw' with ⟨he, rfl⟩ | hw'
    · rfl
    · exact absurd ((hmem _).mp ⟨_, hw'⟩) hnot
    · exact absurd ((hmem _).mp ⟨_, hw⟩) (he ▸ hnot)
    · exact huniq g' w w' hw hw'

/-- Before the first function only the GLOBAL_VALUE wrappers and the function wrappers exist. -/
theorem built_nil (M : Module) (env : Env) :
    Built M env { State.fresh with
      funcMap := .constructFuncMap env.garbage M .empty
      reg := constructGlobals M env .empty } [] := by
  obtain ⟨hinv, hmem, huniq, hlist, hmap⟩ := constructGlobals_spec M env
  refine ⟨⟨hinv, hmem, huniq, fun f _ => hlist f, ?_, by simp, ?_, by simp [State.fresh],
    by simp [State.fresh]⟩, by simp [State.fresh], by simp [State.fresh], by simp [State.fresh]⟩
  · intro f hf _
    simp [FuncMap.constructFuncMap_empty, hf]
  · intro f hf
    exact ⟨.new env.garbage, by simp [FuncMap.constructFuncMap_empty, hf]⟩

/-- From the fresh state the construction does not fault; `Built` says what it leaves. -/
theorem build_spec (M : Module) (env : Env) :
    ∃ s, build M env .fresh = .ok s ∧ Built M env s M.functions :=
  foldlM_invariant (P := fun pre s => Built M env s pre) (built_nil M env)
    fun _ _ _ _ hx h => processFunction_spec h hx

/-- What the construction leaves. -/
def built (M : Module) (env : Env) : State := (build M env .fresh).toOption.getD .fresh

theorem build_eq (M : Module) (env : Env) : build M env .fresh = .ok (built M env) := by
  obtain ⟨s, hs, _⟩ := build_spec M env
  simp [built, hs, Except.toOption]

theorem built_spec (M : Module) (env : Env) : Built M env (built M env) M.functions := by
  obtain ⟨s, hs, h⟩ := build_spec M env
  rw [build_eq] at hs
  cases hs
  exact h

/-! ## The finished graphs -/

/-- The links of the finished PDG between registered wrappers, as links between nodes. -/
def Edge (M : Module) (env : Env) (a b : Node) (t : Int) : Prop :=
  ∃ f ∈ M.functions, FuncEdge M env f a b t

theorem Edge.hasNode {a b : Node} {t : Int} (h : Edge M env a b t) :
    M.HasNode (fun _ => True) a ∧ M.HasNode (fun _ => True) b := by
  obtain ⟨f, hf, he⟩ := h
  exact ⟨he.hasNode hf |>.1.mono fun _ _ => trivial, he.hasNode hf |>.2.mono fun _ _ => trivial⟩

section Finished

variable {s : State} {a b : Node} {w w' : InstructionWrapper} {t : Int}

/-- Every node of the module has a wrapper. -/
theorem Built.exists_rep (h : Built M env s M.functions) (ha : M.HasNode (fun _ => True) a) :
    ∃ w, Rep s.reg a w := by
  cases a with
  | inst i =>
    obtain ⟨f, _, hf, hi⟩ := ha
    exact (h.graphs.processed f hf (Module.defined_of_mem_insts hi)).registered i hi
  | entry f =>
    obtain ⟨_, root, _, _, hroot, _⟩ := (h.graphs.processed f ha.2.1 ha.2.2).wrapper
    exact ⟨root, hroot⟩
  | global g => exact (h.graphs.globals g).mpr ha

theorem Rep.hasNode (h : Built M env s M.functions) (hw : Rep s.reg a w) :
    M.HasNode (fun _ => True) a := by
  cases a with
  | inst i => exact ⟨_, trivial, (Rep.mem_list h.graphs.inv hw).1⟩
  | entry f =>
    refine ⟨trivial, ?_⟩
    by_contra hn
    rw [not_and_or, Bool.not_eq_false] at hn
    have hl := hw.1
    rw [h.graphs.untouched f hn] at hl
    cases hl
  | global g => exact (h.graphs.globals g).mp ⟨w, hw⟩

/-- The finished PDG links the wrappers of two nodes exactly as `Edge` says. -/
theorem Built.pdg_iff (h : Built M env s M.functions) (ha : Rep s.reg a w) (hb : Rep s.reg b w') :
    s.pdg.HasLink (.to w) (.to w') t ↔ Edge M env a b t := by
  rw [h.pdg]
  refine exists_congr fun f => and_congr_right fun _ => ⟨fun hl => ?_, fun he => .edge he ha hb⟩
  generalize hp : WrapperPtr.to w = p at hl
  generalize hq : WrapperPtr.to w' = q at hl
  cases hl with
  | @edge a' b' _ _ _ he ha' hb' =>
    cases hp
    cases hq
    rw [ha.node_unique h.graphs.inv ha', hb.node_unique h.graphs.inv hb']
    exact he
  | late => exact absurd hq.symm (env.garbage_ne w')

/-- Every link of the finished PDG starts at a registered wrapper, and ends at one, or at what a
later function's `entryW` held when a call of it was connected. -/
theorem Built.pdg_link_cases (h : Built M env s M.functions) {p q : WrapperPtr}
    (hl : s.pdg.HasLink p q t) : ∃ a w, Rep s.reg a w ∧ p = .to w ∧
      ((∃ b w', Rep s.reg b w' ∧ q = .to w') ∨
        (q = env.garbage ∧ ∃ f ∈ M.functions, ∃ i ∈ M.insts f, a = .inst i ∧
          ∃ g, M.Calls i g ∧ ¬ M.ListedUpTo g f)) := by
  obtain ⟨f, hf, hl⟩ := (h.pdg p q t).mp hl
  cases hl with
  | @edge a b w w' _ _ ha hb => exact ⟨a, w, ha, rfl, .inl ⟨b, w', hb, rfl⟩⟩
  | @late i g w hi hc hn ha => exact ⟨_, w, ha, rfl, .inr ⟨rfl, f, hf, i, hi, rfl, g, hc, hn⟩⟩

end Finished

end PDG
end DepTaint
