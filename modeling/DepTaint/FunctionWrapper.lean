import DepTaint.Base.Containers
import DepTaint.Wrapper

/-!
# FunctionWrapper

`FunctionWrapper` and the static `funcMap` (`FunctionWrapper.h`), and the ways a run can go wrong.

The constructor leaves `entryW` uninitialised: until `setEntry` is called it holds whatever the
memory held, given here as `garbage`. Only the fields that the configuration with
`PARAMETER_TREE` 0 reads are kept.
-/

namespace DepTaint

/-- Undefined behaviour a run can reach. -/
inductive Fault where
  /-- `funcMap[F]->` where `funcMap` holds no wrapper for `F`. -/
  | nullFunctionWrapper
  /-- `getIDom()` or `getBlock()` of a null tree node. -/
  | nullDomTreeNode
  /-- A null `Instruction*` is dereferenced or tested with `isa<>`. -/
  | nullInstruction
  /-- `*nodes.find(w)` for a pointer `w` that is not in `nodes`. -/
  | unregistered
  /-- `taintMap.find(I)->second` where `taintMap` has no entry for `I`. -/
  | missingTaint
deriving DecidableEq

structure FunctionWrapper where
  entryW : WrapperPtr
  returnInstList : List InstId
  allocaMap : SortedMap InstId Nat
  visited : Bool

/-- `new FunctionWrapper(F)`. -/
def FunctionWrapper.new (garbage : WrapperPtr) : FunctionWrapper := ⟨garbage, [], .empty, false⟩

abbrev FuncMap := FuncId → Option FunctionWrapper

namespace FuncMap

def empty : FuncMap := fun _ => none

/-- `funcMap[F]->`. -/
def get (m : FuncMap) (f : FuncId) : Except Fault FunctionWrapper :=
  match m f with
  | some fw => .ok fw
  | none => .error .nullFunctionWrapper

def set (m : FuncMap) (f : FuncId) (fw : FunctionWrapper) : FuncMap := Function.update m f (some fw)

/-- The body of the loop of `constructFuncMap`: a function not in `funcMap` yet gets a wrapper. -/
def constructFunc (garbage : WrapperPtr) (m : FuncMap) (f : FuncId) : FuncMap :=
  match m f with
  | some _ => m
  | none => m.set f (.new garbage)

/-- `constructFuncMap(M)`. -/
def constructFuncMap (garbage : WrapperPtr) (M : Module) (m : FuncMap) : FuncMap :=
  M.functions.foldl (constructFunc garbage) m

theorem get_of_some {m : FuncMap} {f : FuncId} {fw : FunctionWrapper} (h : m f = some fw) :
    m.get f = .ok fw := by
  simp [get, h]

theorem set_apply (m : FuncMap) (f g : FuncId) (fw : FunctionWrapper) :
    m.set f fw g = if g = f then some fw else m g := by
  simp [set, Function.update_apply]

theorem set_set (m : FuncMap) (f : FuncId) (fw fw' : FunctionWrapper) :
    (m.set f fw).set f fw' = m.set f fw' :=
  Function.update_idem ..

/-- From the empty map every function of the module starts with a fresh wrapper. -/
theorem constructFuncMap_empty {garbage : WrapperPtr} {M : Module} {f : FuncId} :
    constructFuncMap garbage M empty f =
      if f ∈ M.functions then some (.new garbage) else none := by
  unfold constructFuncMap
  refine foldl_invariant (P := fun pre (m : FuncMap) =>
    m f = if f ∈ pre then some (.new garbage) else none) (by simp [empty]) ?_
  intro pre g post m _ hm
  unfold constructFunc
  cases hg : m g with
  | some fw =>
    by_cases hfg : f = g
    · subst hfg
      rw [hg] at hm
      by_cases hpre : f ∈ pre
      · simpa [hpre, hg] using hm
      · simp [hpre] at hm
    · simp [hm, hfg]
  | none =>
    simp only [set_apply]
    by_cases hfg : f = g
    · simp [hfg]
    · simp [hm, hfg]

end FuncMap

end DepTaint
