import Mathlib.Data.List.Chain
import Mathlib.Data.List.Perm.Subperm
import DepTaint.PropagationStep

/-!
# Report

What `TaintValuesFile.txt` contains.

* `mem_printTaintValues`: the lines of one function are those of its instructions that are no calls,
  each with the names of the allocas whose entry is at most that line.
* `mem_report`: the file has the lines of every sensitive function.
-/

namespace DepTaint
namespace PDG

section Report

variable {M : Module} {allocaMap : SortedMap InstId Nat} {F : FuncId} {l : Nat}

/-- `I` is printed on its line if that is not the line printed last. -/
def Printable (M : Module) (I : InstId) : Prop := (M.kind I).isCall = false ∧ 0 < M.line I

/-- What the loop has written once it has seen the instructions in `pre`. -/
structure Printed (M : Module) (allocaMap : SortedMap InstId Nat) (pre : List InstId)
    (s : Nat × List ReportEntry) : Prop where
  entry : ∀ e ∈ s.2, ∃ I ∈ pre, Printable M I ∧ e = (M.line I, namesUpTo M allocaMap (M.line I))
  line : ∀ I ∈ pre, Printable M I → (M.line I, namesUpTo M allocaMap (M.line I)) ∈ s.2
  last : s.1 ≠ 0 → (s.1, namesUpTo M allocaMap s.1) ∈ s.2

theorem Printed.step {pre : List InstId} {s : Nat × List ReportEntry} {I : InstId}
    (h : Printed M allocaMap pre s) :
    Printed M allocaMap (pre ++ [I]) (printInst M allocaMap s I) := by
  -- an instruction that prints nothing
  have hskip : (Printable M I → (M.line I, namesUpTo M allocaMap (M.line I)) ∈ s.2) →
      Printed M allocaMap (pre ++ [I]) s := by
    intro hI
    refine ⟨fun e he => ?_, fun J hJ hp => ?_, h.last⟩
    · obtain ⟨J, hJ, hp, rfl⟩ := h.entry e he
      exact ⟨J, List.mem_append_left _ hJ, hp, rfl⟩
    · rcases List.mem_append.mp hJ with hJ | hJ
      · exact h.line J hJ hp
      · rw [List.mem_singleton] at hJ
        rw [hJ] at hp ⊢
        exact hI hp
  simp only [printInst]
  split
  · rename_i hz
    exact hskip fun hp => absurd hp.2 (by omega)
  · split
    · rename_i hpos
      split
      · rename_i hcall
        refine hskip fun hp => ?_
        rw [hp.1] at hcall
        cases hcall
      · rename_i hcall
        have hI : Printable M I := ⟨by simpa using hcall, hpos.1⟩
        refine ⟨fun e he => ?_, fun J hJ hp => ?_, fun _ => by simp⟩
        · rcases List.mem_append.mp he with he | he
          · obtain ⟨J, hJ, hp, rfl⟩ := h.entry e he
            exact ⟨J, List.mem_append_left _ hJ, hp, rfl⟩
          · rw [List.mem_singleton] at he
            exact ⟨I, by simp, hI, he⟩
        · rcases List.mem_append.mp hJ with hJ | hJ
          · exact List.mem_append_left _ (h.line J hJ hp)
          · rw [List.mem_singleton] at hJ
            rw [hJ]
            simp
    · rename_i hpos
      refine hskip fun hp => ?_
      -- the line was printed last
      have hprev : M.line I = s.1 := by
        by_contra hne
        exact hpos ⟨hp.2, hne⟩
      rw [hprev]
      exact h.last (by
        have := hp.2
        omega)

theorem mem_printTaintValues {e : ReportEntry} : e ∈ printTaintValues M allocaMap F ↔
    ∃ I ∈ M.insts F, Printable M I ∧ e = (M.line I, namesUpTo M allocaMap (M.line I)) := by
  have h : Printed M allocaMap (M.insts F) ((M.insts F).foldl (printInst M allocaMap) (0, [])) :=
    foldl_invariant (P := Printed M allocaMap) ⟨by simp, by simp, by simp⟩
      fun _ _ _ _ _ hp => hp.step
  constructor
  · intro he
    exact h.entry e he
  · rintro ⟨I, hI, hp, he⟩
    rw [he]
    exact h.line I hI hp

theorem mem_namesUpTo {name : String} : name ∈ namesUpTo M allocaMap l ↔
    ∃ q v, allocaMap.find? q = some v ∧ v ≤ l ∧ M.name q = name := by
  simp only [namesUpTo, List.mem_map, List.mem_filter, decide_eq_true_eq, Prod.exists,
    SortedMap.mem_entries_iff, and_assoc]

/-- No line is written twice in a row: the loop compares with the line written last. -/
theorem printTaintValues_isChain :
    (printTaintValues M allocaMap F).IsChain fun e e' => e.1 ≠ e'.1 := by
  let s0 : Nat × List ReportEntry := (0, [])
  refine (foldl_preserves (s := s0) (f := printInst M allocaMap) (l := M.insts F)
    (P := fun s => s.2.IsChain (fun e e' => e.1 ≠ e'.1) ∧ ∀ e ∈ s.2.getLast?, e.1 = s.1)
    ⟨.nil, by simp [s0]⟩ fun s I _ hs => ?_).1
  simp only [printInst]
  split
  · exact hs
  · split
    · rename_i hpos
      split
      · exact hs
      · refine ⟨hs.1.append (.singleton _) fun e he e' he' => ?_, by simp⟩
        obtain rfl : e' = _ := by simpa [eq_comm] using he'
        rw [hs.2 e he]
        exact hpos.2.symm
    · exact hs

/-- The alloca keys that `namesUpTo` lists. -/
theorem namesUpTo_iff {Q : InstId → Prop} :
    (∃ qs : List InstId, qs.Pairwise (· < ·) ∧
      (∀ q, q ∈ qs ↔ Q q ∧ ∃ v, allocaMap.find? q = some v ∧ v ≤ l) ∧
      namesUpTo M allocaMap l = qs.map M.name) ↔
    ∀ q v, allocaMap.find? q = some v → v ≤ l → Q q := by
  let ks := (allocaMap.entries.filter fun pv => pv.2 ≤ l).map Prod.fst
  have hsorted : ks.Pairwise (· < ·) := List.pairwise_map.mpr (allocaMap.sorted.filter _)
  have hnames : namesUpTo M allocaMap l = ks.map M.name := by simp [ks, namesUpTo]
  have hmem : ∀ q, q ∈ ks ↔ ∃ v, allocaMap.find? q = some v ∧ v ≤ l := by
    intro q
    simp [ks, SortedMap.mem_entries_iff]
  constructor
  · rintro ⟨qs, hqs, hiff, hmap⟩ q v hv hle
    -- equally many names, so no key is left out
    have hlen : ks.length = qs.length := by
      have := congrArg List.length (hnames.symm.trans hmap)
      simpa using this
    have hsub : qs ⊆ ks := fun q hq => (hmem q).mpr ((hiff q).mp hq).2
    have hnd : qs.Nodup := hqs.imp fun h => Nat.ne_of_lt h
    have hperm := (hnd.subperm hsub).perm_of_length_le (Nat.le_of_eq hlen)
    exact ((hiff q).mp (hperm.mem_iff.mpr ((hmem q).mpr ⟨v, hv, hle⟩))).1
  · intro h
    refine ⟨ks, hsorted, fun q => ?_, hnames⟩
    rw [hmem]
    constructor
    · rintro ⟨v, hv, hle⟩
      exact ⟨h q v hv hle, v, hv, hle⟩
    · exact And.right

/-- The file has one entry for each sensitive function. -/
theorem mem_report {funcMap : FuncMap} {senFuncSet : List FuncId}
    {file : List (FuncId × List ReportEntry)} (h : report M funcMap senFuncSet = .ok file)
    {es : List ReportEntry} : (F, es) ∈ file ↔ F ∈ senFuncSet ∧
      ∃ fw, funcMap F = some fw ∧ es = printTaintValues M fw.allocaMap F := by
  rw [mem_of_mapM_ok h]
  simp only [bind_eq_ok, FuncMap.get_eq_ok]
  constructor
  · rintro ⟨G, hG, fw, hfw, he⟩
    cases he
    exact ⟨hG, fw, hfw, rfl⟩
  · rintro ⟨hF, fw, hfw, hes⟩
    exact ⟨F, hF, fw, hfw, by rw [hes]; rfl⟩

theorem exists_report {funcMap : FuncMap} {senFuncSet : List FuncId}
    {file : List (FuncId × List ReportEntry)} (h : report M funcMap senFuncSet = .ok file)
    (hF : F ∈ senFuncSet) : ∃ es, (F, es) ∈ file := by
  obtain ⟨fe, hfe⟩ := exists_of_mapM_ok h hF
  obtain ⟨fw, hfw, _⟩ := bind_eq_ok.mp hfe
  exact ⟨_, (mem_report h).mpr ⟨hF, fw, FuncMap.get_eq_ok.mp hfw, rfl⟩⟩

/-- A name is listed for every printed line from the entry of its alloca on. -/
theorem listed_of_recorded {funcMap : FuncMap} {senFuncSet : List FuncId}
    {file : List (FuncId × List ReportEntry)} (h : report M funcMap senFuncSet = .ok file)
    {es : List ReportEntry} (hes : (F, es) ∈ file) {e : ReportEntry} (he : e ∈ es) {q : InstId}
    (hq : recorded funcMap F q = some l) (hl : l ≤ e.1) : M.name q ∈ e.2 := by
  obtain ⟨_, fw, hfw, rfl⟩ := (mem_report h).mp hes
  obtain ⟨I, _, _, rfl⟩ := mem_printTaintValues.mp he
  unfold recorded at hq
  rw [hfw] at hq
  exact mem_namesUpTo.mpr ⟨q, l, hq, hl, rfl⟩

end Report

end PDG
end DepTaint
