import DepTaint.BackEdges
import DepTaint.Base.Fold
import DepTaint.Base.Worklist

/-!
# BackEdgeRemoval

The rewrite of back edges (`removeBackedgesInFunction`).

Every block a back edge starts from gets a branch into a chain of new blocks in place of its
terminator. The instructions of the last block were to be moved to the end of that chain, but the
call that moves them is commented out. So the last block of the function keeps its terminator and
gets a second one behind it, or it is the end of the chain and branches to itself.

* `redirect_spec`, `connect_spec`: the two loops.
* `removeBackedgesInFunction_not_wellRewritten`: no function is rewritten as intended.
-/

namespace DepTaint
namespace BackEdges

namespace Function

/-- A block that does not exist yet. -/
def freshId (F : Function) : BlockId := F.ids.foldr max 0 + 1

/-- Change the instructions of `b`. -/
def modify (F : Function) (b : BlockId) (f : List Inst → List Inst) : Function where
  blocks := F.blocks.map fun B => if B.id = b then { B with insts := f B.insts } else B

/-- `BranchInst::Create(target, b)`: append a branch to `b`. A null target is kept as it is, where LLVM
itself dereferences it. -/
def createBr (F : Function) (target : Option BlockId) (b : BlockId) : Function :=
  F.modify b fun insts => insts ++ [.terminator [target]]

/-- `BasicBlock::Create(.., InsertBefore)` where `InsertBefore` is what follows `b`. -/
def insertAfter (F : Function) (b N : BlockId) : Function where
  blocks := go F.blocks
where
  go : List Block → List Block
    | [] => []
    | B :: Bs => if B.id = b then B :: ⟨N, []⟩ :: Bs else B :: go Bs

end Function

structure Rewrite where
  F : Function
  emptyBBqueue : List BlockId

/-- The loop over the back edges: the target of an edge is not looked at. -/
def redirect (s : Rewrite) (I : BlockId × BlockId) : Except Fault Rewrite :=
  match (s.F.block I.1).bind Block.getTerminator with
  | none => .error .nullTerminator
  | some _ =>
    let BBNew := s.F.freshId
    let F := (s.F.insertAfter I.1 BBNew).modify I.1 List.dropLast
    .ok {
      F := F.createBr (some (s.emptyBBqueue.getLast?.getD BBNew)) I.1
      emptyBBqueue := s.emptyBBqueue ++ [BBNew] }

/-- The loop over the rest of the queue; the state is the function and `BBFrom`. -/
def connect (s : Function × BlockId) (BBTo : BlockId) : Function × BlockId :=
  (s.1.createBr (some BBTo) s.2, BBTo)

/-- What is left when the queue is empty: the function and `BBFrom`, which is null if the queue was
empty before. -/
def connectQueue (s : Rewrite) : Function × Option BlockId :=
  match s.emptyBBqueue with
  | [] => (s.F, none)
  | BBFrom :: queue =>
    let last := queue.foldl connect (s.F, BBFrom)
    (last.1, some last.2)

/-- `removeBackedgesInFunction(F)`. -/
def removeBackedgesInFunction (F : Function) (fuel : Nat) : Except Fault Function := do
  let Edges ← findFunctionBackedges F fuel
  let s ← Edges.foldlM redirect ⟨F, []⟩
  let (F, BBFrom) := connectQueue s
  match F.blocks.getLast? with
  | none => .error .noEntryBlock
  | some pseduoTerminatorBB => return F.createBr BBFrom pseduoTerminatorBB.id

/-! ## Blocks after a change -/

section Blocks

variable {F : Function} {b c N : BlockId} {l : List Inst} {f : List Inst → List Inst}

theorem Function.block_eq_some {B : Block} (hnodup : F.ids.Nodup) :
    F.block b = some B ↔ B ∈ F.blocks ∧ B.id = b := by
  constructor
  · intro h
    exact ⟨List.mem_of_find?_eq_some h, by simpa using List.find?_some h⟩
  · intro h
    obtain ⟨hmem, rfl⟩ := h
    unfold Function.block
    unfold Function.ids at hnodup
    generalize F.blocks = blocks at hmem hnodup
    induction blocks with
    | nil => cases hmem
    | cons C blocks ih =>
      rw [List.map_cons, List.nodup_cons] at hnodup
      rcases List.mem_cons.mp hmem with rfl | hmem
      · rw [List.find?_cons_of_pos (by simp)]
      · have hne : C.id ≠ B.id := fun he =>
          hnodup.1 (he ▸ List.mem_map_of_mem hmem)
        rw [List.find?_cons_of_neg (by simpa using hne)]
        exact ih hmem hnodup.2

theorem Function.exists_block (h : b ∈ F.ids) : ∃ insts, F.block b = some ⟨b, insts⟩ := by
  obtain ⟨B, hB, rfl⟩ := List.mem_map.mp h
  have hsome : (F.block B.id).isSome := List.find?_isSome.mpr ⟨B, hB, by simp⟩
  obtain ⟨C, hC⟩ := Option.isSome_iff_exists.mp hsome
  have hid : C.id = B.id := by simpa using List.find?_some hC
  exact ⟨C.insts, by rw [hC, ← hid]⟩

@[simp] theorem Function.ids_modify : (F.modify b f).ids = F.ids := by
  unfold Function.ids Function.modify
  rw [List.map_map]
  refine List.map_congr_left fun B _ => ?_
  simp only [Function.comp_apply]
  split <;> rfl

theorem Function.block_modify : (F.modify b f).block c =
    (F.block c).map fun B => if B.id = b then { B with insts := f B.insts } else B := by
  unfold Function.block Function.modify
  rw [List.find?_map]
  congr 2
  funext B
  simp only [Function.comp_apply]
  split <;> rfl

theorem Function.block_modify_self (h : F.block b = some ⟨b, l⟩) :
    (F.modify b f).block b = some ⟨b, f l⟩ := by
  rw [block_modify, h, Option.map_some, if_pos rfl]

theorem Function.block_modify_of_ne (h : c ≠ b) : (F.modify b f).block c = F.block c := by
  rw [block_modify]
  cases hB : F.block c with
  | none => rfl
  | some B =>
    have hid : B.id = c := by simpa using List.find?_some hB
    rw [Option.map_some, if_neg (hid ▸ h)]

@[simp] theorem Function.ids_createBr {target : Option BlockId} :
    (F.createBr target b).ids = F.ids := ids_modify

theorem Function.freshId_notMem (F : Function) : F.freshId ∉ F.ids := by
  have hle : ∀ l : List BlockId, ∀ b ∈ l, b ≤ l.foldr max 0 := by
    intro l
    induction l with
    | nil => exact fun b hb => absurd hb List.not_mem_nil
    | cons a l ih =>
      intro b hb
      rw [List.foldr_cons]
      rcases List.mem_cons.mp hb with rfl | hb
      · exact Nat.le_max_left ..
      · exact Nat.le_trans (ih b hb) (Nat.le_max_right ..)
  intro hmem
  exact absurd (hle F.ids F.freshId hmem) (Nat.not_succ_le_self _)

theorem Function.insertAfter_perm (h : b ∈ F.ids) :
    ((F.insertAfter b N).blocks).Perm (⟨N, []⟩ :: F.blocks) := by
  unfold Function.ids at h
  unfold Function.insertAfter
  generalize F.blocks = blocks at h
  induction blocks with
  | nil => cases h
  | cons B blocks ih =>
    rw [insertAfter.go]
    split
    · exact .swap ..
    · rename_i hne
      have hmem : b ∈ blocks.map Block.id := by
        rcases List.mem_cons.mp h with he | hmem
        · exact absurd he.symm hne
        · exact hmem
      exact ((ih hmem).cons B).trans (.swap ..)

theorem Function.ids_insertAfter_perm (h : b ∈ F.ids) :
    ((F.insertAfter b N).ids).Perm (N :: F.ids) :=
  (insertAfter_perm h).map Block.id

theorem Function.getEntryBlock_insertAfter :
    (F.insertAfter b N).getEntryBlock = F.getEntryBlock := by
  unfold Function.getEntryBlock Function.ids Function.insertAfter
  cases F.blocks with
  | nil => rfl
  | cons B blocks =>
    rw [insertAfter.go]
    split <;> rfl

/-- The new block is empty, and the others are as before. -/
theorem Function.block_insertAfter (hnodup : F.ids.Nodup) (h : b ∈ F.ids) (hN : N ∉ F.ids) :
    (F.insertAfter b N).block N = some ⟨N, []⟩ ∧
      ∀ c ≠ N, (F.insertAfter b N).block c = F.block c := by
  have hnodup' : (F.insertAfter b N).ids.Nodup :=
    (ids_insertAfter_perm h).nodup_iff.mpr (List.nodup_cons.mpr ⟨hN, hnodup⟩)
  have hmem : ∀ B, B ∈ (F.insertAfter b N).blocks ↔ B = ⟨N, []⟩ ∨ B ∈ F.blocks := fun B =>
    (insertAfter_perm h).mem_iff.trans List.mem_cons
  refine ⟨(block_eq_some hnodup').mpr ⟨(hmem _).mpr (.inl rfl), rfl⟩, fun c hc => ?_⟩
  refine Option.ext fun B => ?_
  rw [block_eq_some hnodup', block_eq_some hnodup, hmem]
  constructor
  · intro hB
    obtain ⟨rfl | hB, hid⟩ := hB
    · exact absurd hid.symm hc
    · exact ⟨hB, hid⟩
  · exact fun hB => ⟨.inr hB.1, hB.2⟩

theorem Function.succs_eq {succs : List (Option BlockId)}
    (h : F.block b = some ⟨b, l ++ [.terminator succs]⟩) : F.succs b = succs.filterMap id := by
  unfold Function.succs Block.getTerminator
  simp [h]

end Blocks

/-! ## The loops -/

section Loops

variable {F0 F : Function} {s : Rewrite}

/-- After the edges that start in `S`: those blocks branch into the queue, the blocks of the queue
are empty, and the others are as they were. -/
structure Redirected (F0 : Function) (S : List BlockId) (s : Rewrite) : Prop where
  nodup : s.F.ids.Nodup
  entry : s.F.getEntryBlock = F0.getEntryBlock
  mem_ids : ∀ b, b ∈ s.F.ids ↔ b ∈ F0.ids ∨ b ∈ s.emptyBBqueue
  sources : ∀ b ∈ S, b ∈ F0.ids
  queue_nodup : s.emptyBBqueue.Nodup
  queue_new : ∀ q ∈ s.emptyBBqueue, q ∉ F0.ids
  empty : ∀ q ∈ s.emptyBBqueue, s.F.block q = some ⟨q, []⟩
  kept : ∀ b ∈ F0.ids, b ∉ S → s.F.block b = F0.block b
  moved : ∀ b ∈ S, ∃ body, ∃ q ∈ s.emptyBBqueue,
    s.F.block b = some ⟨b, body ++ [.terminator [some q]]⟩

theorem getTerminator_snoc (b : BlockId) (body : List Inst) (succs : List (Option BlockId)) :
    (Block.mk b (body ++ [.terminator succs])).getTerminator = some succs := by
  simp [Block.getTerminator]

theorem Block.Terminated.eq_snoc {B : Block} (h : B.Terminated) :
    ∃ body succs, B.insts = body ++ [.terminator succs] := by
  obtain ⟨_, succs, hsuccs, _⟩ := h
  unfold Block.getTerminator at hsuccs
  split at hsuccs
  · rename_i succs' hlast
    obtain ⟨body, hbody⟩ := List.getLast?_eq_some_iff.mp hlast
    exact ⟨body, succs', hbody⟩
  · cases hsuccs

/-- A block of the given function ends in a terminator at every moment of the loop. -/
theorem Redirected.ends {S : List BlockId} (h : Redirected F0 S s) (hF0 : F0.WellFormed)
    {b : BlockId} (hb : b ∈ F0.ids) :
    ∃ body succs, s.F.block b = some ⟨b, body ++ [.terminator succs]⟩ := by
  by_cases hS : b ∈ S
  · obtain ⟨body, q, _, hblock⟩ := h.moved b hS
    exact ⟨body, [some q], hblock⟩
  · obtain ⟨insts, hinsts⟩ := Function.exists_block hb
    have hmem := ((Function.block_eq_some hF0.nodup).mp hinsts).1
    obtain ⟨body, succs, hl⟩ := (hF0.terminated _ hmem).eq_snoc
    exact ⟨body, succs, by rw [h.kept b hb hS, hinsts, ← hl]⟩

theorem getD_getLast?_mem {α : Type} (l : List α) (x : α) : l.getLast?.getD x ∈ l ++ [x] := by
  cases h : l.getLast? with
  | none => exact List.mem_append_right _ (List.mem_singleton_self x)
  | some y => exact List.mem_append_left _ (List.mem_of_getLast? h)

/-- One back edge. -/
theorem redirect_spec {S : List BlockId} (h : Redirected F0 S s) (hF0 : F0.WellFormed)
    {I : BlockId × BlockId} (hI : I.1 ∈ F0.ids) :
    ∃ s', redirect s I = .ok s' ∧ Redirected F0 (S ++ [I.1]) s' := by
  obtain ⟨u, v⟩ := I
  obtain ⟨body, succs, hu⟩ := h.ends hF0 hI
  have hterm : (s.F.block u).bind Block.getTerminator = some succs := by
    rw [hu, Option.bind_some, getTerminator_snoc]
  let N := s.F.freshId
  have hN : N ∉ s.F.ids := s.F.freshId_notMem
  have huF : u ∈ s.F.ids := (h.mem_ids u).mpr (.inl hI)
  have hNu : u ≠ N := fun he => hN (he ▸ huF)
  have hNF0 : N ∉ F0.ids := fun hmem => hN ((h.mem_ids N).mpr (.inl hmem))
  have hNq : N ∉ s.emptyBBqueue := fun hmem => hN ((h.mem_ids N).mpr (.inr hmem))
  obtain ⟨hnew, hold⟩ := Function.block_insertAfter h.nodup huF hN
  let q := s.emptyBBqueue.getLast?.getD N
  let F' := ((s.F.insertAfter u N).modify u List.dropLast).createBr (some q) u
  have hq : q ∈ s.emptyBBqueue ++ [N] := getD_getLast?_mem ..
  have hids : F'.ids = (s.F.insertAfter u N).ids := by
    rw [Function.ids_createBr, Function.ids_modify]
  have hperm := Function.ids_insertAfter_perm (N := N) huF
  have hself : F'.block u = some ⟨u, body ++ [.terminator [some q]]⟩ := by
    have h1 : (s.F.insertAfter u N).block u = some ⟨u, body ++ [.terminator succs]⟩ := by
      rw [hold u hNu, hu]
    have h2 := Function.block_modify_self (f := List.dropLast) h1
    rw [List.dropLast_concat] at h2
    exact Function.block_modify_self h2
  have hother : ∀ c ≠ u, F'.block c = (s.F.insertAfter u N).block c := fun c hc =>
    (Function.block_modify_of_ne hc).trans (Function.block_modify_of_ne hc)
  refine ⟨⟨F', s.emptyBBqueue ++ [N]⟩, by simp only [redirect, hterm]; rfl, ?_⟩
  refine {
    nodup := ?_, entry := ?_, mem_ids := ?_, sources := ?_, queue_nodup := ?_,
    queue_new := ?_, empty := ?_, kept := ?_, moved := ?_ }
  · show F'.ids.Nodup
    rw [hids, hperm.nodup_iff, List.nodup_cons]
    exact ⟨hN, h.nodup⟩
  · show F'.ids.head? = _
    rw [hids]
    exact Function.getEntryBlock_insertAfter.trans h.entry
  · intro b
    show b ∈ F'.ids ↔ b ∈ F0.ids ∨ b ∈ s.emptyBBqueue ++ [N]
    rw [hids, hperm.mem_iff, List.mem_cons, h.mem_ids, List.mem_append, List.mem_singleton]
    tauto
  · intro b hb
    rcases List.mem_append.mp hb with hb | hb
    · exact h.sources b hb
    · exact List.mem_singleton.mp hb ▸ hI
  · exact List.nodup_append.mpr ⟨h.queue_nodup, List.nodup_singleton N, by
      intro x hx y hy he
      exact hNq (List.mem_singleton.mp hy ▸ he ▸ hx)⟩
  · intro x hx
    rcases List.mem_append.mp hx with hx | hx
    · exact h.queue_new x hx
    · exact List.mem_singleton.mp hx ▸ hNF0
  · intro x hx
    rcases List.mem_append.mp hx with hx | hx
    · have hxu : x ≠ u := fun he => h.queue_new x hx (he ▸ hI)
      have hxN : x ≠ N := fun he => hNq (he ▸ hx)
      exact (hother x hxu).trans ((hold x hxN).trans (h.empty x hx))
    · obtain rfl := List.mem_singleton.mp hx
      exact (hother N (Ne.symm hNu)).trans hnew
  · intro b hb hbS
    have hbu : b ≠ u := fun he => hbS (List.mem_append_right _ (he ▸ List.mem_singleton_self u))
    have hbN : b ≠ N := fun he => hNF0 (he ▸ hb)
    exact (hother b hbu).trans
      ((hold b hbN).trans (h.kept b hb fun hmem => hbS (List.mem_append_left _ hmem)))
  · intro b hb
    by_cases hbu : b = u
    · subst hbu
      exact ⟨body, q, hq, hself⟩
    · have hbS : b ∈ S := by
        rcases List.mem_append.mp hb with hb | hb
        · exact hb
        · exact absurd (List.mem_singleton.mp hb) hbu
      obtain ⟨body', x, hx, hblock⟩ := h.moved b hbS
      have hbN : b ≠ N := fun he => hNF0 (he ▸ h.sources b hbS)
      refine ⟨body', x, List.mem_append_left _ hx, ?_⟩
      exact (hother b hbu).trans ((hold b hbN).trans hblock)

/-- A block of the chain that is a branch to `y` and nothing else. -/
def Branches (F : Function) (x y : BlockId) : Prop :=
  F.block x = some ⟨x, [.terminator [some y]]⟩

/-- What the second loop makes of empty blocks `queue`: a chain to the last one, which stays empty.
Other blocks are as before. -/
structure Connected (F : Function) (queue : List BlockId) (F' : Function) (last : BlockId) :
    Prop where
  ids : F'.ids = F.ids
  kept : ∀ c, c ∉ queue → F'.block c = F.block c
  last_mem : last ∈ queue
  empty : F'.block last = some ⟨last, []⟩
  chain : ∀ x ∈ queue, Relation.ReflTransGen (Branches F') x last

theorem connect_spec {q : BlockId} {queue : List BlockId} (hnodup : (q :: queue).Nodup)
    (hempty : ∀ x ∈ q :: queue, F.block x = some ⟨x, []⟩) :
    Connected F (q :: queue) (queue.foldl connect (F, q)).1 (queue.foldl connect (F, q)).2 := by
  induction queue generalizing F q with
  | nil =>
    refine ⟨rfl, fun _ _ => rfl, List.mem_singleton_self q, hempty q (List.mem_singleton_self q),
      ?_⟩
    intro x hx
    obtain rfl := List.mem_singleton.mp hx
    exact .refl
  | cons y queue ih =>
    obtain ⟨hq, hnodup⟩ := List.nodup_cons.mp hnodup
    have hother : ∀ c ≠ q, (F.createBr (some y) q).block c = F.block c := fun c hc =>
      Function.block_modify_of_ne hc
    have hself : (F.createBr (some y) q).block q = some ⟨q, [.terminator [some y]]⟩ :=
      Function.block_modify_self (hempty q (List.mem_cons_self ..))
    have h := ih (F := F.createBr (some y) q) hnodup fun x hx => by
      rw [hother x fun he => hq (he ▸ hx)]
      exact hempty x (List.mem_cons_of_mem _ hx)
    refine ⟨h.ids.trans Function.ids_createBr, fun c hc => ?_, List.mem_cons_of_mem _ h.last_mem,
      h.empty, fun x hx => ?_⟩
    · rw [List.mem_cons, not_or] at hc
      exact (h.kept c hc.2).trans (hother c hc.1)
    · rcases List.mem_cons.mp hx with rfl | hx
      · exact .head ((h.kept x hq).trans hself) (h.chain y (List.mem_cons_self ..))
      · exact h.chain x hx

end Loops

/-! ## The result -/

/-- A function without directed cycles that can be reached from its entry block. -/
def Function.Acyclic (F : Function) : Prop :=
  ∀ entry, F.getEntryBlock = some entry →
    ∀ c, IsCycle F.succs c → ∀ b ∈ c, ¬ Reaches F.succs entry b

/-- What the removal of back edges is for. -/
structure WellRewritten (F F' : Function) : Prop where
  terminated : ∀ B ∈ F'.blocks, B.Terminated
  acyclic : F'.Acyclic
  reaches : ∀ entry, F.getEntryBlock = some entry → ∀ b, Reaches F.succs entry b →
    ∃ entry', F'.getEntryBlock = some entry' ∧ Reaches F'.succs entry' b
  unchanged : F.Acyclic → F' = F

section Result

variable {F0 F F' : Function} {entry last : BlockId} {Edges : List (BlockId × BlockId)}

theorem entry_mem (hentry : F.getEntryBlock = some entry) : entry ∈ F.ids :=
  List.mem_of_head? hentry

theorem redirected_nil (h : F.WellFormed) : Redirected F [] ⟨F, []⟩ where
  nodup := h.nodup
  entry := rfl
  mem_ids := by simp
  sources := by simp
  queue_nodup := List.nodup_nil
  queue_new := by simp
  empty := by simp
  kept := fun _ _ _ => rfl
  moved := by simp

/-- A second terminator is not allowed, even if it is a branch to a block. -/
theorem not_terminated_snoc (b : BlockId) (body : List Inst) (succs : List (Option BlockId))
    (i : Inst) : ¬ (Block.mk b (body ++ [.terminator succs] ++ [i])).Terminated := by
  intro h
  have hbad := h.1 (.terminator succs) (by simp)
  cases hbad

/-- If the last block already ends in a terminator, the final branch spoils it. -/
theorem not_wellRewritten_of_ends {F1 : Function} {B : Block} {target : Option BlockId}
    {body : List Inst} {succs : List (Option BlockId)} (hnodup : F1.ids.Nodup)
    (hB : F1.block B.id = some ⟨B.id, body ++ [.terminator succs]⟩) :
    ¬ WellRewritten F0 (F1.createBr target B.id) := by
  intro h
  have hblock := Function.block_modify_self (f := fun insts => insts ++ [.terminator [target]]) hB
  have hmem := (Function.block_eq_some (by rw [Function.ids_modify]; exact hnodup)).mp hblock
  exact not_terminated_snoc B.id body succs (.terminator [target]) (h.terminated _ hmem.1)

/-- If it is the end of the chain, it branches to itself, and the chain can be reached: a path to
the source of a back edge enters it at the first such source. -/
theorem not_wellRewritten_of_self (hF0 : F0.WellFormed) (hentry : F0.getEntryBlock = some entry)
    {s : Rewrite} {S : List BlockId} (h : Redirected F0 S s)
    (hc : Connected s.F s.emptyBBqueue F last) {u : BlockId} (hu : u ∈ S)
    (hreach : Reaches F0.succs entry u) : ¬ WellRewritten F0 (F.createBr (some last) last) := by
  intro hw
  let F' := F.createBr (some last) last
  have hother : ∀ c ≠ last, F'.block c = F.block c := fun c hc => Function.block_modify_of_ne hc
  have hself : F'.succs last = [last] := by
    have hblock : F'.block last = some ⟨last, [] ++ [.terminator [some last]]⟩ :=
      Function.block_modify_self hc.empty
    exact Function.succs_eq hblock
  -- along the chain
  have hchain : ∀ x ∈ s.emptyBBqueue, Reaches F'.succs x last := by
    intro x hx
    refine Relation.ReflTransGen.mono (fun y z hyz => ?_) x last (hc.chain x hx)
    have hne : y ≠ last := by
      rintro rfl
      rw [Branches, hc.empty] at hyz
      cases hyz
    have hblock : F'.block y = some ⟨y, [] ++ [.terminator [some z]]⟩ := (hother y hne).trans hyz
    rw [Function.succs_eq hblock]
    exact List.mem_singleton_self z
  have hlast : last ∉ F0.ids := h.queue_new last hc.last_mem
  -- along the path, which leads to a source of a back edge
  have hpath : ∀ b, b ∈ F0.ids → Reaches F0.succs b u → Reaches F'.succs b last := by
    intro b hb hr
    have hsource : ∀ b ∈ S, Reaches F'.succs b last := by
      intro b hb
      obtain ⟨body, q, hq, hblock⟩ := h.moved b hb
      have hbF0 := h.sources b hb
      have hkept := hc.kept b fun hmem => h.queue_new b hmem hbF0
      have hblock' : F'.block b = some ⟨b, body ++ [.terminator [some q]]⟩ :=
        (hother b fun he => hlast (he ▸ hbF0)).trans (hkept.trans hblock)
      refine .head ?_ (hchain q hq)
      rw [Function.succs_eq hblock']
      exact List.mem_singleton_self q
    induction hr using Relation.ReflTransGen.head_induction_on with
    | refl => exact hsource u hu
    | @head b c hbc _ ih =>
      by_cases hbS : b ∈ S
      · exact hsource b hbS
      · have hblock : F'.block b = F0.block b :=
          (hother b fun he => hlast (he ▸ hb)).trans
            ((hc.kept b fun hmem => h.queue_new b hmem hb).trans (h.kept b hb hbS))
        have hsuccs : F'.succs b = F0.succs b := by
          rw [Function.succs, hblock, Function.succs]
        exact .head (hsuccs ▸ hbc) (ih (hF0.succs_mem b hb c hbc))
  have hmem : entry ∈ F0.ids := entry_mem hentry
  have hentry' : F'.getEntryBlock = some entry := by
    show F'.ids.head? = _
    rw [Function.ids_createBr, hc.ids]
    exact h.entry.trans hentry
  refine hw.acyclic entry hentry' [last] ⟨List.cons_ne_nil _ _, ?_⟩ last
    (List.mem_singleton_self last)
    (hpath entry hmem hreach)
  intro e he
  obtain rfl : e = (last, last) := by simpa [cycleEdges] using he
  exact hself ▸ List.mem_singleton_self last

/-- The second loop, if there is a queue. -/
theorem Redirected.connectQueue_cases {s : Rewrite} {S : List BlockId} (h : Redirected F S s) :
    (s.emptyBBqueue = [] ∧ connectQueue s = (s.F, none)) ∨
      ∃ F1 last, connectQueue s = (F1, some last) ∧ Connected s.F s.emptyBBqueue F1 last := by
  unfold connectQueue
  cases hq : s.emptyBBqueue with
  | nil => exact .inl ⟨rfl, rfl⟩
  | cons q queue =>
    exact .inr ⟨_, _, rfl, connect_spec (hq ▸ h.queue_nodup) (hq ▸ h.empty)⟩

theorem removeBackedgesInFunction_eq {fuel : Nat} {s : Rewrite} {B : Block}
    (hrun : findFunctionBackedges F fuel = .ok Edges)
    (hs : Edges.foldlM redirect ⟨F, []⟩ = .ok s)
    (hB : (connectQueue s).1.blocks.getLast? = some B) :
    removeBackedgesInFunction F fuel =
      .ok ((connectQueue s).1.createBr (connectQueue s).2 B.id) := by
  unfold removeBackedgesInFunction
  refine bind_eq_ok.mpr ⟨Edges, hrun, bind_eq_ok.mpr ⟨s, hs, ?_⟩⟩
  simp only [hB]
  rfl

/-- No function is rewritten as intended. -/
theorem removeBackedgesInFunction_not_wellRewritten (hF : F.WellFormed) :
    ∃ F', (∃ n, ∀ fuel, n ≤ fuel → removeBackedgesInFunction F fuel = .ok F') ∧
      ¬ WellRewritten F F' := by
  obtain ⟨entry, Edges, hentry, ⟨n, hrun⟩, hbreaks⟩ := findFunctionBackedges_breaks hF
  have hmem : entry ∈ F.ids := entry_mem hentry
  obtain ⟨s, hs, h⟩ := foldlM_invariant (f := redirect) (l := Edges) (s := ⟨F, []⟩)
    (P := fun pre s => Redirected F (pre.map Prod.fst) s) (redirected_nil hF)
    fun pre I post s1 hx h1 => by
      have hI := hF.mem_ids_of_reaches hmem (hbreaks.reaches I (by simp [hx]))
      rw [List.map_append, List.map_singleton]
      exact redirect_spec h1 hF hI
  have hids : (connectQueue s).1.ids = s.F.ids := by
    rcases h.connectQueue_cases with ⟨_, he⟩ | ⟨F1, last, he, hc⟩
    · rw [he]
    · rw [he, hc.ids]
  obtain ⟨B, hB⟩ : ∃ B, (connectQueue s).1.blocks.getLast? = some B := by
    refine Option.isSome_iff_exists.mp (List.getLast?_isSome.mpr fun hnil => ?_)
    have hsmem := (h.mem_ids entry).mpr (.inl hmem)
    rw [← hids, Function.ids, hnil] at hsmem
    cases hsmem
  refine ⟨_, ⟨n, fun fuel hle => removeBackedgesInFunction_eq (hrun fuel hle) hs hB⟩, ?_⟩
  have hBid : B.id ∈ s.F.ids := hids ▸ List.mem_map_of_mem (List.mem_of_getLast? hB)
  rcases h.connectQueue_cases with ⟨hq, he⟩ | ⟨F1, last, he, hc⟩
  · rw [he]
    have hBF : B.id ∈ F.ids := ((h.mem_ids B.id).mp hBid).resolve_right (by simp [hq])
    obtain ⟨body, succs, hblock⟩ := h.ends hF hBF
    exact not_wellRewritten_of_ends h.nodup hblock
  · rw [he]
    have hnodup : F1.ids.Nodup := hc.ids ▸ h.nodup
    by_cases hBq : B.id ∈ s.emptyBBqueue
    · rcases (hc.chain B.id hBq).cases_head with rfl | ⟨y, hy, _⟩
      · -- a block of the queue comes from an edge
        obtain ⟨e, hedge⟩ : ∃ e, e ∈ Edges := by
          refine List.exists_mem_of_ne_nil Edges fun hnil => ?_
          rw [hnil] at hs
          cases hs
          cases hBq
        exact not_wellRewritten_of_self hF hentry h hc (List.mem_map_of_mem hedge)
          (hbreaks.reaches e hedge)
      · have hblock : F1.block B.id = some ⟨B.id, [] ++ [.terminator [some y]]⟩ := hy
        exact not_wellRewritten_of_ends hnodup hblock
    · have hBF : B.id ∈ F.ids := ((h.mem_ids B.id).mp hBid).resolve_right hBq
      obtain ⟨body, succs, hblock⟩ := h.ends hF hBF
      exact not_wellRewritten_of_ends hnodup ((hc.kept B.id hBq).trans hblock)

end Result

section Sample

/-- Both back edges start at block 2, which loses its way to the last block, where the return is
followed by a branch into the chain. -/
example : removeBackedgesInFunction loops 12 = .ok ⟨[⟨0, [.plain 0, .terminator [some 1]]⟩,
    ⟨1, [.terminator [some 2, some 2]]⟩, ⟨2, [.terminator [some 4]]⟩, ⟨5, []⟩,
    ⟨4, [.terminator [some 5]]⟩, ⟨3, [.terminator [], .terminator [some 5]]⟩]⟩ := by rfl

theorem removeBackedgesInFunction_not_wellRewritten_loops :
    ∃ F', (∃ n, ∀ fuel, n ≤ fuel → removeBackedgesInFunction loops fuel = .ok F') ∧
      ¬ WellRewritten loops F' :=
  removeBackedgesInFunction_not_wellRewritten loops_wellFormed

def ret : Function := ⟨[⟨0, [.terminator []]⟩]⟩

/-- A function without back edges gets a branch to null behind its return. -/
theorem removeBackedgesInFunction_ret :
    ret.WellFormed ∧
      removeBackedgesInFunction ret 0 = .ok ⟨[⟨0, [.terminator [], .terminator [none]]⟩]⟩ ∧
      ¬ WellRewritten ret ⟨[⟨0, [.terminator [], .terminator [none]]⟩]⟩ := by
  refine ⟨⟨by decide, by decide, ?_, by decide⟩, rfl, fun h => ?_⟩
  · intro B hB
    obtain rfl := List.mem_singleton.mp hB
    exact ⟨by decide, _, rfl, by decide⟩
  · obtain ⟨hbody, _⟩ := h.terminated _ (List.mem_singleton_self _)
    exact absurd (hbody (.terminator []) (by decide)) (by decide)

end Sample

end BackEdges
end DepTaint
