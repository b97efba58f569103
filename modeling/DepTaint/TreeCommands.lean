import DepTaint.TreeCopy

/-!
# TreeCommands

Programs with several trees on one memory, and the operations of `tree.hh` they call, one after the
other. Trees are copied, never moved: the move constructor and the move assignment, which no file of
the repository calls, are not among the operations.

* `TreeWorld.exec`: what an operation does, and the iterator it returns.
* `TreeCommand.Enabled`: what the assertions of an operation ask of its caller; an iterator is one
  that comes up on the way from `begin` to `end`.
* `TreeCommand.Does`: what an operation is for. A tree is a forest there, and its iterators are the
  labels of the nodes.
-/

namespace DepTaint

open Forest

namespace Tree

variable {α : Type} (h : NodeHeap α) (t : Tree)

/-- The nodes from `begin` to `end`. -/
def nodes : Except TreeFault (List Ptr) := do
  let it ← t.begin h
  walk h t.feet h.fuel { node := it }

/-- The tree as a walk over it shows it: the number of ancestors and the data of each node. -/
def outline : Except TreeFault (List (Nat × α)) := do
  let l ← t.nodes h
  l.mapM fun p => do
    let d ← depthFrom h h.fuel p
    let n ← h.read p
    .ok (d, n.data)

end Tree

/-- The trees that have been constructed and not destroyed, on the memory they share. -/
structure TreeWorld (α : Type) where
  memory : NodeHeap α
  trees : List Tree

def TreeWorld.empty (α : Type) : TreeWorld α := ⟨.empty, []⟩

/-- An operation on a tree. -/
inductive TreeCommand (α : Type) where
  | construct
  | copyConstruct (other : Tree)
  | assign (tree other : Tree)
  | destroy (tree : Tree)
  | clear (tree : Tree)
  | setHead (tree : Tree) (x : α)
  | insert (tree : Tree) (position : Ptr) (x : α)
  | insertSibling (tree : Tree) (position parent_ : Ptr) (x : α)
  | insertAfter (tree : Tree) (position : Ptr) (x : α)
  | appendChild (tree : Tree) (position : Ptr) (x : α)
  | prependChild (tree : Tree) (position : Ptr) (x : α)
  | eraseChildren (tree : Tree) (it : Ptr)
  | erase (tree : Tree) (it : Ptr)
  | replace (tree : Tree) (position : Ptr) (other : Tree) (from_ : Ptr)

variable {α : Type}

namespace TreeWorld

/-- Only the memory changes. -/
def keep (w : TreeWorld α) (r : Except TreeFault (NodeHeap α × Ptr)) :
    Except TreeFault (TreeWorld α × Ptr) := do
  let (h, ret) ← r
  .ok (⟨h, w.trees⟩, ret)

/-- The trees and the memory after an operation, and the iterator it returns; null if it returns
none. -/
def exec [Inhabited α] (A : Allocator) (w : TreeWorld α) :
    TreeCommand α → Except TreeFault (TreeWorld α × Ptr)
  | .construct => do
    let (h, t) ← Tree.headInitialise A w.memory
    .ok (⟨h, t :: w.trees⟩, 0)
  | .copyConstruct other => do
    let (h, t) ← Tree.copyConstruct A w.memory other
    .ok (⟨h, t :: w.trees⟩, 0)
  | .destroy t => do
    let h ← t.destroy w.memory
    .ok (⟨h, w.trees.erase t⟩, 0)
  | .assign t other => w.keep do
    let h ← t.assign A w.memory other
    .ok (h, 0)
  | .clear t => w.keep do
    let h ← t.clear w.memory
    .ok (h, 0)
  | .setHead t x => w.keep (t.setHead A w.memory x)
  | .insert t position x => w.keep (t.insert A w.memory position x)
  | .insertSibling _ position parent_ x => w.keep (Tree.insertSibling A w.memory position parent_ x)
  | .insertAfter _ position x => w.keep (Tree.insertAfter A w.memory position x)
  | .appendChild t position x => w.keep (t.appendChild A w.memory position x)
  | .prependChild t position x => w.keep (t.prependChild A w.memory position x)
  | .eraseChildren _ it => w.keep do
    let h ← Tree.eraseChildren (2 * w.memory.fuel) w.memory it
    .ok (h, 0)
  | .erase t it => w.keep do
    let (h, ret) ← t.erase w.memory it
    .ok (h, ret.node)
  | .replace t position _ from_ => w.keep (t.replace A w.memory position from_)

/-- `p` is an iterator to a node of `t`. -/
def Holds (w : TreeWorld α) (t : Tree) (p : Ptr) : Prop :=
  t ∈ w.trees ∧ ∃ l, t.nodes w.memory = .ok l ∧ p ∈ l

/-- The caller may run the operation. A tree that is given a head is empty; what is put in the place
of a node comes from another tree. -/
def Enabled (w : TreeWorld α) : TreeCommand α → Prop
  | .construct => True
  | .copyConstruct other => other ∈ w.trees
  | .assign t other => t ∈ w.trees ∧ other ∈ w.trees
  | .destroy t => t ∈ w.trees
  | .clear t => t ∈ w.trees
  | .setHead t _ => t ∈ w.trees ∧ t.nodes w.memory = .ok []
  | .insert t position _ => w.Holds t position ∨ t ∈ w.trees ∧ (position = t.feet ∨ position = 0)
  | .insertSibling t position parent_ _ => w.Holds t position ∨ position = 0 ∧ w.Holds t parent_
  | .insertAfter t position _ => w.Holds t position
  | .appendChild t position _ => w.Holds t position
  | .prependChild t position _ => w.Holds t position
  | .eraseChildren t it => w.Holds t it
  | .erase t it => w.Holds t it
  | .replace t position other from_ => t ≠ other ∧ w.Holds t position ∧ w.Holds other from_

/-- What a caller has run, with the iterators that were returned, the last operation first. -/
inductive Run [Inhabited α] (A : Allocator) (w : TreeWorld α) :
    List (TreeCommand α × Ptr) → TreeWorld α → Prop
  | nil : Run A w [] w
  | cons {l w' c w'' r} (run : Run A w l w') (enabled : w'.Enabled c)
      (exec : w'.exec A c = .ok (w'', r)) : Run A w ((c, r) :: l) w''

end TreeWorld

/-! ## What the operations are for -/

/-- The forest of each tree. -/
abbrev Forests (α : Type) := Tree → Option (Forest Ptr α)

def Forests.set (σ : Forests α) (t : Tree) (f : Forest Ptr α) : Forests α :=
  Function.update σ t (some f)

theorem Forests.set_self {σ : Forests α} {t : Tree} {f : Forest Ptr α} : σ.set t f t = some f :=
  Function.update_self ..

theorem Forests.set_of_ne {σ : Forests α} {t u : Tree} {f : Forest Ptr α} (hu : u ≠ t) :
    σ.set t f u = σ u :=
  Function.update_of_ne hu ..

/-- No label stands for two nodes. -/
structure Forests.WellFormed (σ : Forests α) : Prop where
  nodup : ∀ {t f}, σ t = some f → (0 :: t.footprint f).Nodup
  apart : ∀ {t u f g}, σ t = some f → σ u = some g → t ≠ u → ∀ b ∈ t.footprint f, b ∉ u.footprint g

/-- `c.Does σ r σ'`: the operation `c` makes the forests `σ'` of the forests `σ` and returns `r`. -/
inductive TreeCommand.Does (σ : Forests α) : TreeCommand α → Ptr → Forests α → Prop
  | construct {t} (new : σ t = none) : Does σ .construct 0 (σ.set t .nil)
  | copyConstruct {t other f} {f' : Forest Ptr α} (new : σ t = none) (source : σ other = some f)
      (copy : f'.shape = f.shape) : Does σ (.copyConstruct other) 0 (σ.set t f')
  | assign {t other f} {f' : Forest Ptr α} (ne : t ≠ other) (source : σ other = some f)
      (copy : f'.shape = f.shape) : Does σ (.assign t other) 0 (σ.set t f')
  | assignSelf {t} : Does σ (.assign t t) 0 σ
  | destroy {t} : Does σ (.destroy t) 0 (Function.update σ t none)
  | clear {t} : Does σ (.clear t) 0 (σ.set t .nil)
  | setHead {t x a} (empty : σ t = some .nil) :
      Does σ (.setHead t x) a (σ.set t (.cons a x .nil .nil))
  | insert {t C p y kids rest x a} (at_ : σ t = some (plug C (.cons p y kids rest))) :
      Does σ (.insert t p x) a (σ.set t (plug C (.cons a x .nil (.cons p y kids rest))))
  | insertEnd {t f p x a} (at_ : σ t = some f) (end_ : p = t.feet ∨ p = 0) :
      Does σ (.insert t p x) a (σ.set t (f.snoc a x))
  | insertSibling {t C p y kids rest q x a} (at_ : σ t = some (plug C (.cons p y kids rest))) :
      Does σ (.insertSibling t p q x) a (σ.set t (plug C (.cons a x .nil (.cons p y kids rest))))
  | insertSiblingEnd {t C p y kids rest x a} (at_ : σ t = some (plug C (.cons p y kids rest))) :
      Does σ (.insertSibling t 0 p x) a (σ.set t (plug C (.cons p y (kids.snoc a x) rest)))
  | insertAfter {t C p y kids rest x a} (at_ : σ t = some (plug C (.cons p y kids rest))) :
      Does σ (.insertAfter t p x) a (σ.set t (plug C (.cons p y kids (.cons a x .nil rest))))
  | appendChild {t C p y kids rest x a} (at_ : σ t = some (plug C (.cons p y kids rest))) :
      Does σ (.appendChild t p x) a (σ.set t (plug C (.cons p y (kids.snoc a x) rest)))
  | prependChild {t C p y kids rest x a} (at_ : σ t = some (plug C (.cons p y kids rest))) :
      Does σ (.prependChild t p x) a (σ.set t (plug C (.cons p y (.cons a x .nil kids) rest)))
  | eraseChildren {t C p y kids rest} (at_ : σ t = some (plug C (.cons p y kids rest))) :
      Does σ (.eraseChildren t p) 0 (σ.set t (plug C (.cons p y .nil rest)))
  | erase {t C p y kids rest} (at_ : σ t = some (plug C (.cons p y kids rest))) :
      Does σ (.erase t p) ((rest.ids ++ after C).headD t.feet) (σ.set t (plug C rest))
  | replace {t C p y kids rest other D q z kids' rest' a} {k : Forest Ptr α}
      (at_ : σ t = some (plug C (.cons p y kids rest)))
      (source : σ other = some (plug D (.cons q z kids' rest'))) (copy : k.shape = kids'.shape) :
      Does σ (.replace t p other q) a (σ.set t (plug C (.cons a z k rest)))

/-- The operation is on the tree `t`; a tree that is copied from is left as it is. -/
def TreeCommand.Changes (t : Tree) : TreeCommand α → Prop
  | .construct | .copyConstruct _ => False
  | .assign u _ | .destroy u | .clear u | .setHead u _ | .insert u _ _ | .insertSibling u _ _ _
  | .insertAfter u _ _ | .appendChild u _ _ | .prependChild u _ _ | .eraseChildren u _ | .erase u _
  | .replace u _ _ _ => u = t

theorem TreeCommand.Does.unchanged {σ σ' : Forests α} {c : TreeCommand α} {r : Ptr} {t : Tree}
    {f : Forest Ptr α} (h : c.Does σ r σ') (hc : ¬ c.Changes t) (ht : σ t = some f) :
    σ' t = some f := by
  have hset : ∀ {u g}, u ≠ t → σ.set u g t = some f :=
    fun hne => (Forests.set_of_ne (Ne.symm hne)).trans ht
  have hnew : ∀ {u g}, σ u = none → σ.set u g t = some f := by
    intro u g hu
    refine hset ?_
    rintro rfl
    rw [ht] at hu
    cases hu
  cases h with
  | construct new => exact hnew new
  | copyConstruct new => exact hnew new
  | assignSelf => exact ht
  | destroy => exact (Function.update_of_ne (Ne.symm hc) ..).trans ht
  | _ => exact hset hc

/-- What the operations of a run make, the last one first. -/
inductive Forests.Run (σ : Forests α) : List (TreeCommand α × Ptr) → Forests α → Prop
  | nil : Run σ [] σ
  | cons {l σ' c r σ''} (run : Run σ l σ') (does : c.Does σ' r σ'') (wellFormed : σ''.WellFormed) :
    Run σ ((c, r) :: l) σ''

theorem Forests.Run.unchanged {σ σ' : Forests α} {l : List (TreeCommand α × Ptr)} {t : Tree}
    {f : Forest Ptr α} (h : Forests.Run σ l σ') (hl : ∀ e ∈ l, ¬ e.1.Changes t)
    (ht : σ t = some f) : σ' t = some f := by
  induction h with
  | nil => exact ht
  | cons _ hdoes _ ih =>
    have hrest := ih fun e he => hl e (List.mem_cons_of_mem _ he)
    exact hdoes.unchanged (hl _ (List.mem_cons_self ..)) hrest

end DepTaint
