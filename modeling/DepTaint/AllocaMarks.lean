import DepTaint.PropagationTrace
import DepTaint.Report
import DepTaint.TaintLines

/-!
# AllocaMarks

The alloca maps over whole runs, against what the propagation meant to record in them.

* `LooksUp`: an enqueuing indexes the map with an alloca, which inserts it if it is no key.
* `Marks`: an enqueuing gives an alloca a line.
* `allocaKeys_iff`: the keys stay those of the collection and the annotations exactly if no
  excluded alloca is looked up.
* `exact_iff`: when the report lists exactly the marked allocas.
-/

namespace DepTaint
namespace PDG

/-! ## What an enqueuing does to an entry -/

namespace Enqueuing

variable (M : Module) (F : FuncId) (q : InstId)

/-- The enqueuing looks up `q` in the alloca map of `F`: a load of `q`, or a store to it from a
coloured wrapper. -/
def LooksUp (e : Enqueuing) : Prop :=
  M.parent e.inst = F ∧ (M.kind q).isAlloca = true ∧
    (M.kind e.inst = .load (.inst q) ∨
      (M.StoresTo e.inst q ∧ e.before.coloredInstSet e.source = true))

/-- The enqueuing assigns a line to `q`: a store to it from a coloured wrapper when the entry is
`allocaMAX`, or a load of it from a store when the entry is below. -/
def Marks (e : Enqueuing) : Prop :=
  M.parent e.inst = F ∧ (M.kind q).isAlloca = true ∧
    ((M.StoresTo e.inst q ∧ e.before.coloredInstSet e.source = true ∧
      (recorded e.before.funcMap F q).getD 0 = allocaMAX) ∨
    (M.kind e.inst = .load (.inst q) ∧ (recorded e.before.funcMap F q).getD 0 < allocaMAX ∧
      ∃ S, e.source.inst = some S ∧ (M.kind S).isStore = true))

end Enqueuing

section Entries

variable {M : Module} {F : FuncId} {q : InstId} {e : Enqueuing}

theorem Enqueuing.Marks.looksUp (h : e.Marks M F q) : e.LooksUp M F q := by
  obtain ⟨hf, hq, ⟨hs, hc, _⟩ | ⟨hl, _⟩⟩ := h
  · exact ⟨hf, hq, .inr ⟨hs, hc⟩⟩
  · exact ⟨hf, hq, .inl hl⟩

/-- The entry after an enqueuing that marks `q`, looks it up only, or does neither. -/
theorem Enqueuing.entry (he : Enqueued M e.source e.target e.inst e.before e.after) :
    (e.Marks M F q ∧ ∃ l, recorded e.after.funcMap F q = some l) ∨
    (¬ e.Marks M F q ∧ e.LooksUp M F q ∧
      recorded e.after.funcMap F q = some ((recorded e.before.funcMap F q).getD 0)) ∨
    (¬ e.LooksUp M F q ∧ recorded e.after.funcMap F q = recorded e.before.funcMap F q) := by
  rw [he.recorded]
  by_cases hf : F = M.parent e.inst
  · rw [if_pos hf]
    unfold nextLine Enqueuing.Marks Enqueuing.LooksUp Module.StoresTo
    simp only [hf.symm, true_and]
    generalize recorded e.before.funcMap F q = old
    cases hk : M.kind e.inst with
    | store v ptr =>
      by_cases hptr : ptr = .inst q ∧ (M.kind q).isAlloca = true
      · obtain ⟨rfl, hq⟩ := hptr
        cases hc : e.before.coloredInstSet e.source with
        | false => simp [hq]
        | true =>
          by_cases hold : old.getD 0 = allocaMAX <;> simp [allocaOf_eq_some, hq, hold]
      · refine .inr (.inr ⟨?_, by simp [allocaOf_eq_some, hptr]⟩)
        intro hx
        obtain ⟨hq, hl | ⟨⟨v', hv⟩, _⟩⟩ := hx
        · cases hl
        · cases hv
          exact hptr ⟨rfl, hq⟩
    | load ptr =>
      by_cases hptr : ptr = .inst q ∧ (M.kind q).isAlloca = true
      · obtain ⟨rfl, hq⟩ := hptr
        cases hW : e.source.inst with
        | none => simp [allocaOf_eq_some, hq]
        | some S =>
          by_cases hold : old.getD 0 < allocaMAX ∧ (M.kind S).isStore = true
          · simp [allocaOf_eq_some, hq, hold]
          · refine .inr (.inl ⟨?_, ⟨hq, .inl rfl⟩, by simp [allocaOf_eq_some, hq, hold]⟩)
            intro hx
            obtain ⟨_, ⟨⟨v, hv⟩, _⟩ | ⟨_, hlt, S', hS', hst⟩⟩ := hx
            · cases hv
            · cases hS'
              exact hold ⟨hlt, hst⟩
      · refine .inr (.inr ⟨?_, by simp [allocaOf_eq_some, hptr]⟩)
        intro hx
        obtain ⟨hq, hl | ⟨⟨v', hv⟩, _⟩⟩ := hx
        · cases hl
          exact hptr ⟨rfl, hq⟩
        · cases hv
    | _ => simp
  · rw [if_neg hf]
    exact .inr (.inr ⟨fun h => hf h.1.symm, rfl⟩)

/-- An entry that is there stays, unless the enqueuing marks it. -/
theorem Enqueuing.recorded_eq_some (he : Enqueued M e.source e.target e.inst e.before e.after)
    (hm : ¬ e.Marks M F q) {line : Nat} (h : recorded e.before.funcMap F q = some line) :
    recorded e.after.funcMap F q = some line := by
  rcases e.entry (F := F) (q := q) he with ⟨hm', _⟩ | ⟨_, _, hl⟩ | ⟨_, hl⟩
  · exact absurd hm' hm
  · rw [hl, h, Option.getD_some]
  · rw [hl, h]

/-- An enqueuing adds what it looks up to the keys. -/
theorem Enqueuing.isSome_iff (he : Enqueued M e.source e.target e.inst e.before e.after) :
    (recorded e.after.funcMap F q).isSome = true ↔
      (recorded e.before.funcMap F q).isSome = true ∨ e.LooksUp M F q := by
  rcases e.entry (F := F) (q := q) he with ⟨hm, l, hl⟩ | ⟨_, hu, hl⟩ | ⟨hu, hl⟩
  · simp [hl, hm.looksUp]
  · simp [hl, hu]
  · simp [hl, hu]

end Entries

/-! ## The keys -/

/-- `q` is to be a key of the alloca map of `F`. -/
def IsKey (M : Module) (F : FuncId) (q : InstId) : Prop :=
  Collects M F q ∨ (M.Annotated q ∧ q ∈ M.insts F)

instance (M : Module) (F : FuncId) (q : InstId) : Decidable (IsKey M F q) :=
  inferInstanceAs (Decidable (_ ∨ _ ∧ _))

/-- An alloca of a return slot that is not annotated. -/
def Excluded (M : Module) (F : FuncId) (q : InstId) : Prop :=
  q ∈ M.insts F ∧ (M.kind q).isAlloca = true ∧ hasRetval (M.name q) = true ∧ ¬ M.Annotated q

/-- The alloca map of `F` has the keys it is to have, and what would be printed from it lists no
excluded alloca. -/
structure KeysExact (M : Module) (F : FuncId) (s : PropState) : Prop where
  keys : ∀ q, (recorded s.funcMap F q).isSome = true ↔ IsKey M F q
  report : ∀ fw, s.funcMap F = some fw → ∀ e ∈ printTaintValues M fw.allocaMap F,
    ∃ qs : List InstId, e.2 = qs.map M.name ∧ ∀ q ∈ qs, ¬ Excluded M F q

section Keys

variable {M : Module} {env : Env} {b : State} {p s : PropState} {senFuncSet : List FuncId}
  {F : FuncId} {q : InstId} {n : Nat}

theorem Excluded.not_key (h : Excluded M F q) : ¬ IsKey M F q := by
  obtain ⟨_, _, hr, hann⟩ := h
  rintro (⟨_, _, hc⟩ | ⟨ha, _⟩)
  · rw [hr] at hc
    cases hc
  · exact hann ha

theorem KeysExact.of_keys (h : ∀ q, (recorded s.funcMap F q).isSome = true ↔ IsKey M F q) :
    KeysExact M F s := by
  refine ⟨h, fun fw hfw e he => ?_⟩
  obtain ⟨I, _, _, rfl⟩ := mem_printTaintValues.mp he
  refine ⟨(fw.allocaMap.entries.filter fun pv => pv.2 ≤ M.line I).map Prod.fst, ?_, ?_⟩
  · simp [namesUpTo]
  · intro q hq hex
    obtain ⟨⟨_, v⟩, hv, rfl⟩ := List.mem_map.mp hq
    have hfind := fw.allocaMap.mem_entries_iff.mp (List.mem_of_mem_filter hv)
    refine hex.not_key ((h _).mp ?_)
    simp [recorded, hfw, hfind]

/-- The keys when the loop starts. -/
theorem Started.isSome_iff (hb : Built M env b M.functions) (hst : Started M b p senFuncSet)
    (hF : F ∈ M.functions) : (PDG.recorded p.funcMap F q).isSome = true ↔ IsKey M F q := by
  rw [hst.recorded, hb.recorded hF]
  unfold IsKey
  by_cases hann : M.Annotated q
  · by_cases hf : F = M.parent q
    · have hq : q ∈ M.insts F := hf ▸ hann.hasInst.2
      simp [← hf, hann, hq]
    · have hq : q ∉ M.insts F := fun hq => hf (Module.HasInst.parent ⟨hF, hq⟩).symm
      have hc : ¬ Collects M F q := fun hc => hq hc.1
      simp [hf, hq, hc]
  · by_cases hc : Collects M F q <;> simp [hann, hc]

/-- What a registered instruction looks up is an alloca of its function. -/
theorem Enqueuing.LooksUp.mem {e : Enqueuing} (hinv : b.reg.Inv env.heap M)
    (hn : e.target ∈ b.reg.nodes) (hi : e.target.inst = some e.inst) (h : e.LooksUp M F q) :
    q ∈ M.insts F := by
  obtain ⟨rfl, _, h⟩ := h
  have hin := ((rep_of_inst hinv hn hi).mem_list hinv).1
  have hop : .inst q ∈ (M.kind e.inst).operands := by
    rcases h with h | ⟨⟨v, h⟩, _⟩ <;> simp [h, Kind.operands]
  exact (M.operands_ok _ hin.1 e.inst hin.2 _ hop).1

/-- Looking up keeps the keys exact unless it is an excluded alloca that is looked up. -/
theorem Enqueuing.keys_iff {e : Enqueuing} (hinv : b.reg.Inv env.heap M)
    (he : Enqueued M e.source e.target e.inst e.before e.after) (hn : e.target ∈ b.reg.nodes)
    (hi : e.target.inst = some e.inst) (hk : KeysExact M F e.before) :
    KeysExact M F e.after ↔ ∀ q, Excluded M F q → ¬ e.LooksUp M F q := by
  constructor
  · intro hk' q hex hu
    exact hex.not_key ((hk'.keys q).mp ((isSome_iff he).mpr (.inr hu)))
  · intro hno
    refine .of_keys fun q => ?_
    rw [isSome_iff he, hk.keys]
    refine or_iff_left_of_imp fun hu => ?_
    have hq := hu.mem hinv hn hi
    by_contra hkey
    have hret : hasRetval (M.name q) = true := by
      by_contra hret
      rw [Bool.not_eq_true] at hret
      exact hkey (.inl ⟨hq, hu.2.1, hret⟩)
    exact hno q ⟨hq, hu.2.1, hret, fun hann => hkey (.inr ⟨hann, hq⟩)⟩ hu

/-- In a run of the loop on a module, the keys of the alloca map of `F` are the collected allocas
and the annotated instructions of `F` before every enqueuing and at the end, exactly if no
enqueuing looks up an excluded alloca of `F`. -/
theorem allocaKeys_iff (hstart : start M .fresh (built M env) = .ok (p, senFuncSet))
    (h : propagate M (built M env).reg n p = .ok s) (hF : F ∈ M.functions) :
    ((∀ e ∈ trace M (built M env).reg n p, KeysExact M F e.before) ∧ KeysExact M F s) ↔
      ∀ e ∈ trace M (built M env).reg n p, ∀ q, Excluded M F q → ¬ e.LooksUp M F q := by
  have hb := built_spec M env
  have hst := start_spec hb hstart
  refine trace_induction (P := fun hist s => ((∀ e ∈ hist, KeysExact M F e.before) ∧
    KeysExact M F s) ↔ ∀ e ∈ hist, ∀ q, Excluded M F q → ¬ e.LooksUp M F q) ?_ ?_ ?_ h
  · have h0 : KeysExact M F p := .of_keys fun q => hst.isSome_iff hb hF
    simp [h0]
  · intro hist s s0 W queue hs hP
    have hkeys : KeysExact M F s0 ↔ KeysExact M F s := by
      constructor
      · intro hk
        exact .of_keys fun q => by rw [← hk.keys q, hs.recorded]
      · intro hk
        exact .of_keys fun q => by rw [← hk.keys q, hs.recorded]
    rw [hkeys]
    exact hP
  · intro hist s1 s2 W adj I hn hi hf he hP
    simp only [List.forall_mem_append, List.forall_mem_singleton]
    constructor
    · intro hx
      obtain ⟨⟨hhist, hk1⟩, hk2⟩ := hx
      exact ⟨hP.mp ⟨hhist, hk1⟩,
        (Enqueuing.keys_iff (e := ⟨W, adj, I, s1, s2⟩) hb.graphs.inv he hn hi hk1).mp hk2⟩
    · intro hx
      obtain ⟨hhist, hlast⟩ := hx
      obtain ⟨hpre, hk1⟩ := hP.mpr hhist
      exact ⟨⟨hpre, hk1⟩,
        (Enqueuing.keys_iff (e := ⟨W, adj, I, s1, s2⟩) hb.graphs.inv he hn hi hk1).mpr hlast⟩

end Keys

/-! ## A return slot -/

namespace ReturnSlot

def inst (i : InstId) : Instruction :=
  Option.getD (List.lookup i [
    (0, ⟨"retval", 0, .alloca (.other 1), 0⟩),
    (1, ⟨"a", 1, .alloca (.other 1), 0⟩),
    (2, ⟨"a1", 3, .bitcast (.inst 1), 0⟩),
    (3, ⟨"", 3, .call (.func 1) [.inst 2] false, 0⟩),
    (4, ⟨"t", 5, .load (.inst 1), 0⟩),
    (5, ⟨"", 5, .store (.inst 4) (.inst 0), 0⟩),
    (6, ⟨"t1", 6, .load (.inst 0), 0⟩)])
    ⟨"", 6, .ret (some (.inst 6)), 0⟩

def M : Module where
  inst := inst
  func f := Option.getD (List.lookup f [
    (0, { name := "main", blocks := [⟨0, [0, 1, 2, 3, 4, 5, 6, 7]⟩] })]) Function.varAnnotation
  functions := [0, 1]
  globals := []
  annotations := []

def env : Env :=
  { Env.straightLine with AA := fun L S => if L = 6 ∧ S = 5 then .mustAlias else .noAlias }

end ReturnSlot

open ReturnSlot in
/-- The store of the annotated `a` to the return slot makes it a key, and the report lists it. -/
theorem returnSlot_key : Excluded M 0 0 ∧ ∃ r, runOnModule M env .fresh = .ok r ∧
    ¬ KeysExact M 0 r.final ∧ ∃ es, (0, es) ∈ r.taintValuesFile ∧
      (6, ["retval", "a"]) ∈ es := by
  have hex : Excluded M 0 0 := ⟨by decide, rfl, by decide, by decide⟩
  obtain ⟨r, hr, h⟩ := exists_ok (x := runOnModule M env .fresh)
    (P := fun r => (recorded r.final.funcMap 0 0).isSome ∧
      r.taintValuesFile.any fun fe => fe.1 = 0 ∧ (6, ["retval", "a"]) ∈ fe.2) (by decide +kernel)
  rw [decide_eq_true_eq, List.any_eq_true] at h
  obtain ⟨hkey, ⟨_, es⟩, hes, h⟩ := h
  rw [decide_eq_true_eq] at h
  obtain ⟨rfl, h6⟩ := h
  exact ⟨hex, r, hr, fun hk => hex.not_key ((hk.keys 0).mp hkey), es, hes, h6⟩

namespace ConstantSlot

def inst (i : InstId) : Instruction :=
  Option.getD (List.lookup i [
    (0, ⟨"retval", 0, .alloca (.other 1), 0⟩),
    (1, ⟨"a", 1, .alloca (.other 1), 0⟩),
    (2, ⟨"a1", 3, .bitcast (.inst 1), 0⟩),
    (3, ⟨"", 3, .call (.func 1) [.inst 2] false, 0⟩),
    (4, ⟨"t", 5, .load (.inst 1), 0⟩),
    (5, ⟨"t1", 5, .load (.inst 1), 0⟩),
    (6, ⟨"", 6, .store (.other 0) (.inst 0), 0⟩)])
    ⟨"", 6, .ret (some (.other 0)), 0⟩

def M : Module where
  inst := inst
  func f := Option.getD (List.lookup f [
    (0, { name := "main", blocks := [⟨0, [0, 1, 2, 3, 4, 5, 6, 7]⟩] })]) Function.varAnnotation
  functions := [0, 1]
  globals := []
  annotations := []

end ConstantSlot

open ConstantSlot in
/-- The store to the return slot stores a constant and is never reached, so the slot is not looked
up. -/
theorem allocaKeys_iff_constant : Excluded M 0 0 ∧ M.StoresTo 6 0 ∧
    ∃ x s, start M .fresh (built M .straightLine) = .ok x ∧
      propagate M (built M .straightLine).reg (iterations (built M .straightLine).reg x.1) x.1 =
        .ok s ∧ KeysExact M 0 s := by
  obtain ⟨x, hx, h⟩ := exists_ok (x := start M .fresh (built M .straightLine)) (P := fun x =>
    (propagate M (built M .straightLine).reg (iterations (built M .straightLine).reg x.1)
      x.1).toOption.any (fun _ => true) ∧
    (trace M (built M .straightLine).reg (iterations (built M .straightLine).reg x.1)
      x.1).all fun e => e.inst ≠ 6) (by decide +kernel)
  rw [decide_eq_true_eq] at h
  obtain ⟨hok, htrace⟩ := h
  obtain ⟨s, hs, _⟩ := exists_ok hok
  have hex : Excluded M 0 0 := ⟨by decide, rfl, by decide, by decide⟩
  have hslot : ∀ q ∈ M.insts 0, hasRetval (M.name q) = true → q = 0 := by decide
  refine ⟨hex, ⟨_, rfl⟩, x, s, hx, hs, ((allocaKeys_iff hx hs (by decide)).mpr ?_).2⟩
  intro e he q hq hlook
  obtain rfl := hslot q hq.1 hq.2.2.1
  have hne : e.inst ≠ 6 := by simpa using List.all_eq_true.mp htrace e he
  rcases hlook.2.2 with hload | ⟨⟨v, hstore⟩, _⟩
  · match hi : e.inst with
    | 0 | 1 | 2 | 3 | 4 | 5 | 6 | _ + 7 =>
      rw [hi] at hload
      cases hload
  · match hi : e.inst with
    | 6 => exact hne hi
    | 0 | 1 | 2 | 3 | 4 | 5 | _ + 7 =>
      rw [hi] at hstore
      cases hstore

end PDG
end DepTaint
