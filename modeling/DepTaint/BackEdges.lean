import DepTaint.Base.DepthFirst
import DepTaint.IR

/-!
# BackEdges

The back edges of a function (`FindFunctionBackedges`), over control flow graphs with self-loops,
parallel edges and blocks that cannot be reached.

The blocks here are those the later rewrite works on: a block is its list of instructions, of which
only the terminators matter, and the rewrite may leave it with none or with several of them.

* `findFunctionBackedges_spec`: the search ends; it reports edges of cycles only, and an edge of
  every cycle that can be reached.
-/

namespace DepTaint
namespace BackEdges

inductive Fault where
  | outOfFuel
  /-- The entry block of a function without blocks. -/
  | noEntryBlock
  /-- A block without a terminator is asked for it. -/
  | nullTerminator
deriving DecidableEq

/-- A branch can be created with a null target. -/
inductive Inst where
  | plain (id : InstId)
  | terminator (succs : List (Option BlockId))
deriving DecidableEq

structure Block where
  id : BlockId
  insts : List Inst
deriving DecidableEq

/-- The blocks in their order in the function; the first one is the entry block. -/
structure Function where
  blocks : List Block
deriving DecidableEq

def Inst.isTerminator : Inst → Bool
  | .plain _ => false
  | .terminator _ => true

/-- `getTerminator()`: the last instruction, if it is a terminator. -/
def Block.getTerminator (B : Block) : Option (List (Option BlockId)) :=
  match B.insts.getLast? with
  | some (.terminator succs) => some succs
  | _ => none

/-- Exactly one terminator, at the end, with targets that are not null. -/
def Block.Terminated (B : Block) : Prop :=
  (∀ i ∈ B.insts.dropLast, i.isTerminator = false) ∧ ∃ succs ∈ B.getTerminator, none ∉ succs

namespace Function

def ids (F : Function) : List BlockId := F.blocks.map Block.id

def block (F : Function) (b : BlockId) : Option Block := F.blocks.find? fun B => B.id = b

def getEntryBlock (F : Function) : Option BlockId := F.ids.head?

/-- From `succ_begin(BB)` to `succ_end(BB)`, of a block without null targets. -/
def succs (F : Function) (b : BlockId) : List BlockId :=
  (((F.block b).bind Block.getTerminator).getD []).filterMap id

/-- What the verifier checks of a function with a body. -/
structure WellFormed (F : Function) : Prop where
  nonempty : F.blocks ≠ []
  nodup : F.ids.Nodup
  terminated : ∀ B ∈ F.blocks, B.Terminated
  succs_mem : ∀ b ∈ F.ids, ∀ v ∈ F.succs b, v ∈ F.ids

end Function

/-- `FindFunctionBackedges(F, Result)`. -/
def findFunctionBackedges (F : Function) (fuel : Nat) : Except Fault (List (BlockId × BlockId)) :=
  match F.getEntryBlock with
  | none => .error .noEntryBlock
  | some BB =>
    if F.succs BB = [] then .ok []
    else
      match DepthFirst.run F.succs fuel (DepthFirst.start F.succs BB) with
      | none => .error .outOfFuel
      | some s => .ok s.result

section Spec

variable {F : Function}

theorem Function.WellFormed.exists_entry (h : F.WellFormed) :
    ∃ entry, F.getEntryBlock = some entry ∧ entry ∈ F.ids := by
  obtain ⟨B, blocks, hB⟩ := List.exists_cons_of_ne_nil h.nonempty
  exact ⟨B.id, by simp [Function.getEntryBlock, Function.ids, hB], by simp [Function.ids, hB]⟩

theorem Function.WellFormed.mem_ids_of_reaches (h : F.WellFormed) {b c : BlockId}
    (hb : b ∈ F.ids) (hr : Reaches F.succs b c) : c ∈ F.ids := by
  induction hr with
  | refl => exact hb
  | tail _ hv ih => exact h.succs_mem _ ih _ hv

/-- A vertex without successors reaches itself only, and lies on no cycle. -/
theorem eq_of_reaches_of_nil {α : Type} {succs : α → List α} {u v : α} (hu : succs u = [])
    (h : Reaches succs u v) : v = u := by
  induction h with
  | refl => rfl
  | @tail w x _ hx ih =>
    rw [ih, hu] at hx
    cases hx

/-- What the result of the search says about the cycles of `F`. -/
structure BreaksCycles (F : Function) (entry : BlockId) (Edges : List (BlockId × BlockId)) :
    Prop where
  on_cycle : ∀ e ∈ Edges, e.2 ∈ F.succs e.1 ∧ ∃ c, IsCycle F.succs c ∧ e ∈ cycleEdges c
  reaches : ∀ e ∈ Edges, Reaches F.succs entry e.1
  breaks : ∀ c, IsCycle F.succs c → (∃ b ∈ c, Reaches F.succs entry b) →
    ∃ e ∈ cycleEdges c, e ∈ Edges

theorem findFunctionBackedges_breaks (h : F.WellFormed) :
    ∃ entry Edges, F.getEntryBlock = some entry ∧
      (∃ n, ∀ fuel, n ≤ fuel → findFunctionBackedges F fuel = .ok Edges) ∧
      BreaksCycles F entry Edges := by
  obtain ⟨entry, hentry, hmem⟩ := h.exists_entry
  by_cases hnil : F.succs entry = []
  · -- the entry block is the only one that can be reached
    refine ⟨entry, [], hentry, ⟨0, fun fuel _ => ?_⟩, by simp, by simp, fun c hc hreach => ?_⟩
    · simp only [findFunctionBackedges, hentry, if_pos hnil]
    · obtain ⟨b, hb, hr⟩ := hreach
      obtain rfl := eq_of_reaches_of_nil hnil hr
      obtain ⟨v, _, he⟩ := exists_mem_cycleEdges hb
      have := hc.2 _ he
      rw [hnil] at this
      cases this
  · obtain ⟨s, fin, hrun, hinv, hstack⟩ := DepthFirst.run_terminates
      (fun v hv => h.mem_ids_of_reaches hmem hv) (DepthFirst.inv_start F.succs entry)
      (List.cons_ne_nil _ _)
    refine ⟨entry, s.result, hentry,
      ⟨DepthFirst.measure F.ids (DepthFirst.start F.succs entry), ?_⟩, ?_, ?_, ?_⟩
    · intro fuel hle
      simp only [findFunctionBackedges, hentry, if_neg hnil, hrun fuel hle]
    · intro e he
      obtain ⟨h1, _, h3⟩ := hinv.exists_isCycle_of_mem he
      exact ⟨h1, h3⟩
    · intro e he
      exact (hinv.exists_isCycle_of_mem he).2.1
    · intro c hc hreach
      obtain ⟨b, hb, hr⟩ := hreach
      exact hinv.exists_mem_of_isCycle hstack hc hb hr

end Spec

/-- On every control flow graph the search ends, every reported pair is an edge on a directed cycle,
and every directed cycle that can be reached from the entry block has a reported edge. -/
theorem findFunctionBackedges_spec {F : Function} (h : F.WellFormed) :
    ∃ entry Edges, F.getEntryBlock = some entry ∧
      (∃ n, ∀ fuel, n ≤ fuel → findFunctionBackedges F fuel = .ok Edges) ∧
      (∀ e ∈ Edges, e.2 ∈ F.succs e.1 ∧ ∃ c, IsCycle F.succs c ∧ e ∈ cycleEdges c) ∧
      ∀ c, IsCycle F.succs c → (∃ b ∈ c, Reaches F.succs entry b) →
        ∃ e ∈ cycleEdges c, e ∈ Edges := by
  obtain ⟨entry, Edges, hentry, hrun, hbreaks⟩ := findFunctionBackedges_breaks h
  exact ⟨entry, Edges, hentry, hrun, hbreaks.on_cycle, hbreaks.breaks⟩

section Sample

/-- A self-loop, two edges from one block to another and a loop around both. -/
def loops : Function where
  blocks := [⟨0, [.plain 0, .terminator [some 1]]⟩, ⟨1, [.terminator [some 2, some 2]]⟩,
    ⟨2, [.terminator [some 2, some 1, some 3]]⟩, ⟨3, [.terminator []]⟩]

theorem loops_wellFormed : loops.WellFormed where
  nonempty := by decide
  nodup := by decide
  terminated := by
    intro B hB
    simp only [loops, List.mem_cons, List.not_mem_nil, or_false] at hB
    rcases hB with rfl | rfl | rfl | rfl <;> exact ⟨by decide, _, rfl, by decide⟩
  succs_mem := by decide

theorem findFunctionBackedges_spec_loops :
    ∃ entry Edges, loops.getEntryBlock = some entry ∧
      (∃ n, ∀ fuel, n ≤ fuel → findFunctionBackedges loops fuel = .ok Edges) ∧
      ∃ e ∈ cycleEdges [1, 2], e ∈ Edges := by
  obtain ⟨entry, Edges, hentry, hrun, _, hbreaks⟩ := findFunctionBackedges_spec loops_wellFormed
  obtain rfl : 0 = entry := Option.some.inj hentry
  have hreach : Reaches loops.succs 0 1 := .single (by decide)
  exact ⟨0, Edges, hentry, hrun, hbreaks [1, 2] ⟨by decide, by decide⟩ ⟨1, by decide, hreach⟩⟩

end Sample

end BackEdges
end DepTaint
