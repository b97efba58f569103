import DepTaint.ModuleLoop

/-!
# FlowDependence

The flow dependences of the finished DDG against reaching definitions.

* `Reaches`: a path of the control flow graph leads from a store to a load of the same variable
  without another store to it.
* `rawLinked_iff`: the one store a load is linked to is the nearest in source lines, whether it
  reaches the load or not.
-/

namespace DepTaint

namespace Module

variable (M : Module) (f : FuncId)

/-- `j` stands right after `i` in a block, or at the start of a successor of the block `i` ends. -/
def Next (i j : InstId) : Prop :=
  ∃ b ∈ M.blockIds f, (∃ pre post, M.blockInsts f b = pre ++ i :: j :: post) ∨
    (M.terminator f b = some i ∧ ∃ c ∈ M.succs f b, (M.blockInsts f c).head? = some j)

/-- `i` is a store to `p`. -/
def StoresTo (i p : InstId) : Prop := ∃ v, M.kind i = .store v (.inst p)

/-- A path leads from `u` to `v` with no store to `p` in between. -/
inductive ClearPath (p : InstId) : InstId → InstId → Prop where
  | next {u v : InstId} : M.Next f u v → ClearPath p u v
  | cons {u w v : InstId} : M.Next f u w → ¬ M.StoresTo w p → ClearPath p w v → ClearPath p u v

variable {M f} in
theorem ClearPath.trans {p u w v : InstId} (huw : M.ClearPath f p u w) (hw : ¬ M.StoresTo w p)
    (hwv : M.ClearPath f p w v) : M.ClearPath f p u v := by
  induction huw with
  | next h => exact .cons h hw hwv
  | cons h hx _ ih => exact .cons h hx (ih hw hwv)

variable {M f} in
/-- Straight on in a block. -/
theorem ClearPath.block {p u v : InstId} {b : BlockId} (hb : b ∈ M.blockIds f)
    (pre mid post : List InstId) (h : M.blockInsts f b = pre ++ u :: (mid ++ v :: post))
    (hmid : ∀ w ∈ mid, ¬ M.StoresTo w p) : M.ClearPath f p u v := by
  induction mid generalizing pre u with
  | nil => exact .next ⟨b, hb, .inl ⟨pre, post, h⟩⟩
  | cons w mid ih =>
    have hnext : M.Next f u w := ⟨b, hb, .inl ⟨pre, mid ++ v :: post, h⟩⟩
    refine .cons hnext (hmid w (by simp)) (ih (pre ++ [u]) ?_ fun x hx => hmid x (by simp [hx]))
    rw [h]
    simp

/-- The store `u` to the alloca `p` is a reaching definition of the load `v`. -/
def Reaches (p u v : InstId) : Prop :=
  (M.kind p).isAlloca = true ∧ M.StoresTo u p ∧ M.kind v = .load (.inst p) ∧ M.ClearPath f p u v

end Module

namespace PDG

/-- The DDG has a RAW link from `S` to `L`. -/
def RawLinked (s : State) (S L : InstId) : Prop :=
  ∃ w w', Rep s.reg (.inst S) w ∧ Rep s.reg (.inst L) w' ∧
    s.ddg.HasLink (.to w) (.to w') DependencyType.dataRaw.toInt

section Raw

variable {M : Module} {env : Env} {F : FuncId} {S L : InstId}

/-- A load is linked to the first of the nearest stores that may alias it, if one is less than
`maxLocNum` lines away. -/
theorem rawLinked_iff (hF : F ∈ M.functions) (hL : L ∈ M.insts F)
    (hload : (M.kind L).isLoad = true) : RawLinked (built M env) S L ↔
      IsFirstMin (DDG.lineDist M L) DDG.maxLocNum (DDG.getDependencyInFunction M env.AA F L) S := by
  have hb := built_spec M env
  rw [← DDG.candidateSI_eq_some]
  constructor
  · rintro ⟨w, w', hw, hw', hl⟩
    obtain ⟨S', L', hS, hL', f, hf, h⟩ := (hb.graphs.ddg_iff hw hw').mp hl
    cases hS
    cases hL'
    generalize ht : DependencyType.dataRaw.toInt = t at h
    cases h with
    | raw hLf _ hc =>
      rwa [Module.HasInst.unique ⟨hf, hLf⟩ ⟨hF, hL⟩] at hc
    | defUse => cases ht
  · intro hc
    obtain ⟨w, hw⟩ := hb.exists_rep (a := .inst S) ⟨F, trivial, hF, (DDG.candidateSI_mem hc).1⟩
    obtain ⟨w', hw'⟩ := hb.exists_rep (a := .inst L) ⟨F, trivial, hF, hL⟩
    exact ⟨w, w', hw, hw',
      (hb.graphs.ddg_iff hw hw').mpr ⟨S, L, rfl, rfl, F, hF, .raw hL hload hc⟩⟩

end Raw

/-! ## A store that may be overwritten -/

namespace MaybeOverwritten

def inst (i : InstId) : Instruction :=
  Option.getD (List.lookup i [
    (0, ⟨"x", 1, .alloca (.other 1), 0⟩),
    (1, ⟨"", 2, .store (.other 1) (.inst 0), 0⟩),
    (2, ⟨"", 3, .condBr (.other 2) 1 2, 0⟩),
    (3, ⟨"", 4, .store (.other 0) (.inst 0), 0⟩),
    (4, ⟨"", 4, .br 2, 0⟩),
    (5, ⟨"t", 6, .load (.inst 0), 0⟩)])
    ⟨"", 7, .ret none, 0⟩

def M : Module where
  inst := inst
  func _ := { name := "main", blocks := [⟨0, [0, 1, 2]⟩, ⟨1, [3, 4]⟩, ⟨2, [5, 6]⟩] }
  functions := [0]
  globals := []
  annotations := []

def env : Env := { Env.straightLine with PDT := fun _ => .ifThen }

theorem reaches : M.Reaches 0 0 1 5 := by
  refine ⟨rfl, ⟨_, rfl⟩, rfl, .cons (w := 2) ⟨0, by decide, .inl ⟨[0], [], rfl⟩⟩ ?_
    (.next ⟨0, by decide, .inr ⟨rfl, 2, by decide, rfl⟩⟩)⟩
  rintro ⟨v, hv⟩
  cases hv

end MaybeOverwritten

open MaybeOverwritten in
/-- The store in line 2 reaches the load in line 6 past the branch, but the store in line 4 is
nearer. -/
theorem overwritten_not_linked :
    env.AA 5 1 ≠ .noAlias ∧ M.Reaches 0 0 1 5 ∧ ¬ RawLinked (built M env) 1 5 := by
  refine ⟨by decide, reaches, ?_⟩
  rintro ⟨w, w', hw, hw', hl⟩
  have hinv := (built_spec M env).graphs.inv
  have hrun : ∀ w ∈ (built M env).reg.funcInstWList 0,
      ∀ w' ∈ (built M env).reg.funcInstWList 0, w.inst = some 1 → w'.inst = some 5 →
      ¬ (built M env).ddg.HasLink (.to w) (.to w') DependencyType.dataRaw.toInt := by
    decide +kernel
  exact hrun w (hw.mem_list hinv).2 w' (hw'.mem_list hinv).2 (hw.isInst hinv).inst
    (hw'.isInst hinv).inst hl

open MaybeOverwritten in
theorem rawLinked_iff_overwritten : RawLinked (built M env) 3 5 :=
  (rawLinked_iff (F := 0) (by decide) (by decide) rfl).mpr
    ⟨by decide, [1], [], by decide, by decide, by simp⟩

end PDG
end DepTaint
