import Mathlib.Algebra.GroupWithZero.Nat
import Mathlib.Data.Finset.Card

/-!
# TreeNodes

`tree.hh`: the nodes of a `tree` in memory, the operations that relink them, and the iterators.

Memory holds the nodes that have been constructed and not destroyed. The allocator is a parameter: it
may return any address that is not in use, so it may use one again. An access through null or to a
node that is not there is a fault, and so is an assertion that fails; a loop that goes on for longer
than there are nodes has run into a cycle.

Every loop of the source is a function of its own. An `unsigned int` wraps around, and an `int` that
would count past its maximum is a fault.
-/

namespace DepTaint

/-- A `tree_node *`; 0 is null. -/
abbrev Ptr := Nat

/-- `tree_node_`. -/
structure TreeNode (α : Type) where
  parent : Ptr := 0
  firstChild : Ptr := 0
  lastChild : Ptr := 0
  prevSibling : Ptr := 0
  nextSibling : Ptr := 0
  data : α

inductive TreeFault where
  | badAccess
  | assertion
  | endless
  | overflow

structure NodeHeap (α : Type) where
  cells : Ptr → Option (TreeNode α)
  live : Finset Ptr
  mem_live : ∀ a, a ∈ live ↔ (cells a).isSome = true

/-- `tree_node_allocator::allocate`. -/
structure Allocator where
  allocate : Finset Ptr → Ptr
  fresh : ∀ s, allocate s ∉ s
  ne_null : ∀ s, allocate s ≠ 0

namespace NodeHeap

variable {α : Type}

def empty : NodeHeap α where
  cells _ := none
  live := ∅
  mem_live a := by simp

def put (h : NodeHeap α) (a : Ptr) (n : TreeNode α) : NodeHeap α where
  cells := Function.update h.cells a (some n)
  live := insert a h.live
  mem_live b := by
    rw [Finset.mem_insert, h.mem_live]
    by_cases hb : b = a
    · simp [hb]
    · simp [hb]

def remove (h : NodeHeap α) (a : Ptr) : NodeHeap α where
  cells := Function.update h.cells a none
  live := h.live.erase a
  mem_live b := by
    rw [Finset.mem_erase, h.mem_live]
    by_cases hb : b = a
    · simp [hb]
    · simp [hb]

def read (h : NodeHeap α) (a : Ptr) : Except TreeFault (TreeNode α) :=
  if a = 0 then .error .badAccess
  else
    match h.cells a with
    | none => .error .badAccess
    | some n => .ok n

/-- Assign to fields of a node. -/
def modify (h : NodeHeap α) (a : Ptr) (f : TreeNode α → TreeNode α) :
    Except TreeFault (NodeHeap α) := do
  let n ← h.read a
  .ok (h.put a (f n))

/-- `alloc_.allocate` and `alloc_.construct`. -/
def alloc (A : Allocator) (h : NodeHeap α) (x : α) : NodeHeap α × Ptr :=
  (h.put (A.allocate h.live) { data := x }, A.allocate h.live)

/-- `alloc_.destroy` and `alloc_.deallocate`. -/
def dealloc (h : NodeHeap α) (a : Ptr) : Except TreeFault (NodeHeap α) := do
  let _ ← h.read a
  .ok (h.remove a)

/-- More steps than a walk over all nodes takes. -/
def fuel (h : NodeHeap α) : Nat := h.live.card + 1

end NodeHeap

/-- The class `tree`. -/
structure Tree where
  head : Ptr
  feet : Ptr
deriving DecidableEq

/-- `assert`. -/
def treeAssert (b : Bool) : Except TreeFault Unit := if b then .ok () else .error .assertion

section Iterators

variable {α : Type} (h : NodeHeap α)

/-! ## Iterators -/

/-- A `pre_order_iterator`. -/
structure PreOrderIterator where
  node : Ptr
  skipCurrentChildren : Bool := false

def PreOrderIterator.skipChildren (it : PreOrderIterator) : PreOrderIterator :=
  { it with skipCurrentChildren := true }

/-- `while(node->next_sibling==0)`, and the step to the sibling. -/
def climb : Nat → Ptr → Except TreeFault Ptr
  | 0, _ => .error .endless
  | fuel + 1, node => do
    let n ← h.read node
    if n.nextSibling = 0 then
      if n.parent = 0 then .ok 0 else climb fuel n.parent
    else .ok n.nextSibling

/-- `pre_order_iterator::operator++`. -/
def PreOrderIterator.incr (it : PreOrderIterator) : Except TreeFault PreOrderIterator := do
  treeAssert (it.node ≠ 0)
  let n ← h.read it.node
  if it.skipCurrentChildren = false ∧ n.firstChild ≠ 0 then .ok { it with node := n.firstChild }
  else do
    let node ← climb h h.fuel it.node
    .ok { node := node, skipCurrentChildren := false }

/-- `while(node->last_child)`. -/
def descendLast : Nat → Ptr → Except TreeFault Ptr
  | 0, _ => .error .endless
  | fuel + 1, node => do
    let n ← h.read node
    if n.lastChild = 0 then .ok node else descendLast fuel n.lastChild

/-- `pre_order_iterator::operator--`. -/
def PreOrderIterator.decr (it : PreOrderIterator) : Except TreeFault PreOrderIterator := do
  treeAssert (it.node ≠ 0)
  let n ← h.read it.node
  if n.prevSibling ≠ 0 then do
    let node ← descendLast h h.fuel n.prevSibling
    .ok { it with node := node }
  else .ok { it with node := n.parent }

/-- `while(node->first_child)`. -/
def descendFirst : Nat → Ptr → Except TreeFault Ptr
  | 0, _ => .error .endless
  | fuel + 1, node => do
    let n ← h.read node
    if n.firstChild = 0 then .ok node else descendFirst fuel n.firstChild

/-- `post_order_iterator::operator++`, when `skip_children` has not been called. -/
def postOrderIncr (node : Ptr) : Except TreeFault Ptr := do
  treeAssert (node ≠ 0)
  let n ← h.read node
  if n.nextSibling = 0 then .ok n.parent
  else descendFirst h h.fuel n.nextSibling

namespace Tree

variable (t : Tree)

def begin : Except TreeFault Ptr := do
  let n ← h.read t.head
  .ok n.nextSibling

def beginPost : Except TreeFault Ptr := do
  let n ← h.read t.head
  if n.nextSibling ≠ t.feet then descendFirst h h.fuel n.nextSibling else .ok n.nextSibling

/-- The nodes from `it` up to `eit`, as `while(it!=eit)` with `++it` comes to them. -/
def walk (eit : Ptr) : Nat → PreOrderIterator → Except TreeFault (List Ptr)
  | 0, _ => .error .endless
  | fuel + 1, it =>
    if it.node = eit then .ok []
    else do
      let it' ← it.incr h
      let l ← walk eit fuel it'
      .ok (it.node :: l)

/-- The same from `feet` down to `begin()`, with `--it`. -/
def walkBack (first : Ptr) : Nat → PreOrderIterator → Except TreeFault (List Ptr)
  | 0, _ => .error .endless
  | fuel + 1, it =>
    if it.node = first then .ok []
    else do
      let it' ← it.decr h
      let l ← walkBack first fuel it'
      .ok (it'.node :: l)

/-- The same with a post-order iterator. -/
def walkPost (eit : Ptr) : Nat → Ptr → Except TreeFault (List Ptr)
  | 0, _ => .error .endless
  | fuel + 1, node =>
    if node = eit then .ok []
    else do
      let node' ← postOrderIncr h node
      let l ← walkPost eit fuel node'
      .ok (node :: l)

def size : Except TreeFault Nat := do
  let it ← t.begin h
  let l ← walk h t.feet h.fuel { node := it }
  .ok l.length

/-- `size` of the subtree at `top`. -/
def sizeAt (top : Ptr) : Except TreeFault Nat := do
  let eit ← PreOrderIterator.incr h { node := top, skipCurrentChildren := true }
  let l ← walk h eit.node h.fuel { node := top }
  .ok l.length

/-- The turns of `while(pos->parent!=0)`. -/
def depthFrom : Nat → Ptr → Except TreeFault Nat
  | 0, _ => .error .endless
  | fuel + 1, pos => do
    let n ← h.read pos
    if n.parent = 0 then .ok 0
    else do
      let ret ← depthFrom fuel n.parent
      .ok (ret + 1)

def depth (it : Ptr) : Except TreeFault Int := do
  treeAssert (it ≠ 0)
  let turns ← depthFrom h h.fuel it
  -- `++ret` once a turn, on an `int`
  if turns < 2 ^ 31 then .ok turns else .error .overflow

/-- `while((pos=pos->next_sibling))`. -/
def countSiblings : Nat → Ptr → Except TreeFault UInt32
  | 0, _ => .error .endless
  | fuel + 1, pos => do
    let n ← h.read pos
    if n.nextSibling = 0 then .ok 0
    else do
      let ret ← countSiblings fuel n.nextSibling
      .ok (ret + 1)

/-- `tree::number_of_children`. -/
def numberOfChildren (it : Ptr) : Except TreeFault UInt32 := do
  let n ← h.read it
  if n.firstChild = 0 then .ok 0
  else do
    let ret ← countSiblings h h.fuel n.firstChild
    .ok (ret + 1)

/-- `while(pos!=node->last_child)`. -/
def countUpTo (last : Ptr) : Nat → Ptr → Except TreeFault UInt32
  | 0, _ => .error .endless
  | fuel + 1, pos =>
    if pos = last then .ok 0
    else do
      let n ← h.read pos
      let ret ← countUpTo last fuel n.nextSibling
      .ok (ret + 1)

/-- `iterator_base::number_of_children`. -/
def iteratorNumberOfChildren (node : Ptr) : Except TreeFault UInt32 := do
  let n ← h.read node
  if n.firstChild = 0 then .ok 0
  else do
    let ret ← countUpTo h n.lastChild h.fuel n.firstChild
    .ok (ret + 1)

/-- `while(num--)`. -/
def skipSiblings : Nat → Ptr → Except TreeFault Ptr
  | 0, tmp => .ok tmp
  | num + 1, tmp => do
    treeAssert (tmp ≠ 0)
    let n ← h.read tmp
    skipSiblings num n.nextSibling

def child (it : Ptr) (num : UInt32) : Except TreeFault Ptr := do
  let n ← h.read it
  skipSiblings h num.toNat n.firstChild

end Tree

end Iterators

/-! ## Operations -/

namespace Tree

variable {α : Type} (A : Allocator) (h : NodeHeap α) (t : Tree)

/-- `head_initialise_`. -/
def headInitialise [Inhabited α] : Except TreeFault (NodeHeap α × Tree) := do
  let (h, head) := h.alloc A default
  let (h, feet) := h.alloc A default
  let h ← h.modify head fun n =>
    { n with parent := 0, firstChild := 0, lastChild := 0, prevSibling := 0, nextSibling := feet }
  let h ← h.modify feet fun n =>
    { n with parent := 0, firstChild := 0, lastChild := 0, prevSibling := head, nextSibling := 0 }
  .ok (h, ⟨head, feet⟩)

/-- The assertions on the position of a new child. -/
def assertPosition (position : Ptr) : Except TreeFault Unit :=
  treeAssert (position ≠ t.head ∧ position ≠ t.feet ∧ position ≠ 0)

/-- `append_child(position, x)`. -/
def appendChild (position : Ptr) (x : α) : Except TreeFault (NodeHeap α × Ptr) := do
  t.assertPosition position
  let (h, tmp) := h.alloc A x
  let h ← h.modify tmp fun n => { n with firstChild := 0, lastChild := 0, parent := position }
  let p ← h.read position
  let h ←
    if p.lastChild ≠ 0 then h.modify p.lastChild fun n => { n with nextSibling := tmp }
    else h.modify position fun n => { n with firstChild := tmp }
  let p ← h.read position
  let h ← h.modify tmp fun n => { n with prevSibling := p.lastChild }
  let h ← h.modify position fun n => { n with lastChild := tmp }
  let h ← h.modify tmp fun n => { n with nextSibling := 0 }
  .ok (h, tmp)

/-- `prepend_child(position, x)`. -/
def prependChild (position : Ptr) (x : α) : Except TreeFault (NodeHeap α × Ptr) := do
  t.assertPosition position
  let (h, tmp) := h.alloc A x
  let h ← h.modify tmp fun n => { n with firstChild := 0, lastChild := 0, parent := position }
  let p ← h.read position
  let h ←
    if p.firstChild ≠ 0 then h.modify p.firstChild fun n => { n with prevSibling := tmp }
    else h.modify position fun n => { n with lastChild := tmp }
  let p ← h.read position
  let h ← h.modify tmp fun n => { n with nextSibling := p.firstChild }
  let h ← h.modify position fun n => { n with firstChild := tmp }
  let h ← h.modify tmp fun n => { n with prevSibling := 0 }
  .ok (h, tmp)

/-- Link the node before `tmp`, or its parent, to it; used by both versions of `insert`. -/
def linkPrev (h : NodeHeap α) (tmp : Ptr) : Except TreeFault (NodeHeap α) := do
  let n ← h.read tmp
  if n.prevSibling = 0 then
    if n.parent ≠ 0 then h.modify n.parent fun n => { n with firstChild := tmp } else .ok h
  else h.modify n.prevSibling fun n => { n with nextSibling := tmp }

/-- `insert(position, x)`; null stands for `feet`. -/
def insert (position : Ptr) (x : α) : Except TreeFault (NodeHeap α × Ptr) := do
  let position := if position = 0 then t.feet else position
  let (h, tmp) := h.alloc A x
  let p ← h.read position
  let h ← h.modify tmp fun n =>
    { n with
      firstChild := 0, lastChild := 0, parent := p.parent, nextSibling := position
      prevSibling := p.prevSibling }
  let h ← h.modify position fun n => { n with prevSibling := tmp }
  let h ← linkPrev h tmp
  .ok (h, tmp)

/-- `insert(position, x)` for a sibling iterator; at the end of the children of `parent_`, its node
is null. -/
def insertSibling (position parent_ : Ptr) (x : α) : Except TreeFault (NodeHeap α × Ptr) := do
  let (h, tmp) := h.alloc A x
  let h ←
    if position = 0 then do
      let p ← h.read parent_
      let h ← h.modify tmp fun n =>
        { n with
          firstChild := 0, lastChild := 0, nextSibling := 0, parent := parent_
          prevSibling := p.lastChild }
      h.modify parent_ fun n => { n with lastChild := tmp }
    else do
      let p ← h.read position
      let h ← h.modify tmp fun n =>
        { n with
          firstChild := 0, lastChild := 0, nextSibling := position, parent := p.parent
          prevSibling := p.prevSibling }
      h.modify position fun n => { n with prevSibling := tmp }
  let h ← linkPrev h tmp
  .ok (h, tmp)

/-- `insert_after(position, x)`. -/
def insertAfter (position : Ptr) (x : α) : Except TreeFault (NodeHeap α × Ptr) := do
  let (h, tmp) := h.alloc A x
  let p ← h.read position
  let h ← h.modify tmp fun n =>
    { n with
      firstChild := 0, lastChild := 0, parent := p.parent, prevSibling := position
      nextSibling := p.nextSibling }
  let h ← h.modify position fun n => { n with nextSibling := tmp }
  let n ← h.read tmp
  let h ←
    if n.nextSibling = 0 then
      if n.parent ≠ 0 then h.modify n.parent fun n => { n with lastChild := tmp } else .ok h
    else h.modify n.nextSibling fun n => { n with prevSibling := tmp }
  .ok (h, tmp)

def setHead (x : α) : Except TreeFault (NodeHeap α × Ptr) := do
  let n ← h.read t.head
  treeAssert (n.nextSibling = t.feet)
  t.insert A h t.feet x

mutual

/-- `erase_children`. -/
def eraseChildren : Nat → NodeHeap α → Ptr → Except TreeFault (NodeHeap α)
  | 0, _, _ => .error .endless
  | fuel + 1, h, node =>
    if node = 0 then .ok h
    else do
      let n ← h.read node
      let h ← eraseSiblings fuel h n.firstChild
      h.modify node fun n => { n with firstChild := 0, lastChild := 0 }

/-- The loop of `erase_children`. -/
def eraseSiblings : Nat → NodeHeap α → Ptr → Except TreeFault (NodeHeap α)
  | 0, _, _ => .error .endless
  | fuel + 1, h, cur =>
    if cur = 0 then .ok h
    else do
      let prev := cur
      let n ← h.read prev
      let cur := n.nextSibling
      let h ← eraseChildren fuel h prev
      let h ← h.dealloc prev
      eraseSiblings fuel h cur

end

/-- `erase`; returns the incremented iterator. -/
def erase (it : Ptr) : Except TreeFault (NodeHeap α × PreOrderIterator) := do
  treeAssert (it ≠ t.head)
  let ret ← PreOrderIterator.incr h { node := it, skipCurrentChildren := true }
  let h ← eraseChildren (2 * h.fuel) h it
  let cur ← h.read it
  let h ←
    if cur.prevSibling = 0 then
      h.modify cur.parent fun n => { n with firstChild := cur.nextSibling }
    else h.modify cur.prevSibling fun n => { n with nextSibling := cur.nextSibling }
  let h ←
    if cur.nextSibling = 0 then
      h.modify cur.parent fun n => { n with lastChild := cur.prevSibling }
    else h.modify cur.nextSibling fun n => { n with prevSibling := cur.prevSibling }
  let h ← h.dealloc it
  .ok (h, ret)

/-- `while(head->next_sibling!=feet)`. -/
def clearLoop : Nat → NodeHeap α → Except TreeFault (NodeHeap α)
  | 0, _ => .error .endless
  | fuel + 1, h => do
    let n ← h.read t.head
    if n.nextSibling = t.feet then .ok h
    else do
      let (h, _) ← t.erase h n.nextSibling
      clearLoop fuel h

def clear : Except TreeFault (NodeHeap α) := if t.head = 0 then .ok h else t.clearLoop h.fuel h

/-- `~tree`. -/
def destroy : Except TreeFault (NodeHeap α) := do
  let h ← t.clear h
  let h ← h.dealloc t.head
  h.dealloc t.feet

/-- `while(current_from->next_sibling==0 && current_from!=start_from)`: the two positions after it. -/
def leave (start_from : Ptr) : Nat → NodeHeap α → Ptr → Ptr → Except TreeFault (Ptr × Ptr)
  | 0, _, _, _ => .error .endless
  | fuel + 1, h, current_from, toit => do
    let n ← h.read current_from
    if n.nextSibling = 0 ∧ current_from ≠ start_from then do
      let m ← h.read toit
      treeAssert (n.parent ≠ 0)
      leave start_from fuel h n.parent m.parent
    else .ok (current_from, toit)

/-- The loop of `replace` that copies the children. -/
def copyChildren (start_from last : Ptr) :
    Nat → NodeHeap α → Ptr → Ptr → Except TreeFault (NodeHeap α)
  | 0, _, _, _ => .error .endless
  | fuel + 1, h, current_from, toit => do
    treeAssert (current_from ≠ 0)
    let n ← h.read current_from
    if n.firstChild ≠ 0 then do
      let m ← h.read n.firstChild
      let (h, toit) ← t.appendChild A h toit m.data
      if n.firstChild ≠ last then copyChildren start_from last fuel h n.firstChild toit else .ok h
    else do
      let (current_from, toit) ← leave start_from h.fuel h current_from toit
      let n ← h.read current_from
      if n.nextSibling ≠ last then do
        let m ← h.read n.nextSibling
        let p ← h.read toit
        let (h, toit) ← t.appendChild A h p.parent m.data
        copyChildren start_from last fuel h n.nextSibling toit
      else .ok h

/-- `replace(position, from)`. -/
def replace (position from_ : Ptr) : Except TreeFault (NodeHeap α × Ptr) := do
  treeAssert (position ≠ t.head)
  let h ← eraseChildren (2 * h.fuel) h position
  let x ← h.read from_
  let (h, tmp) := h.alloc A x.data
  let current_to ← h.read position
  let h ←
    if current_to.prevSibling = 0 then
      if current_to.parent ≠ 0 then h.modify current_to.parent fun n => { n with firstChild := tmp }
      else .ok h
    else h.modify current_to.prevSibling fun n => { n with nextSibling := tmp }
  let h ← h.modify tmp fun n => { n with prevSibling := current_to.prevSibling }
  let h ←
    if current_to.nextSibling = 0 then
      if current_to.parent ≠ 0 then h.modify current_to.parent fun n => { n with lastChild := tmp }
      else .ok h
    else h.modify current_to.nextSibling fun n => { n with prevSibling := tmp }
  let h ← h.modify tmp fun n =>
    { n with nextSibling := current_to.nextSibling, parent := current_to.parent }
  let h ← h.dealloc position
  let x ← h.read from_
  let h ← t.copyChildren A from_ x.nextSibling h.fuel h from_ tmp
  .ok (h, tmp)

/-- The first loop of `copy_`: a node for each top node of `other`. -/
def copyHeads (other : Tree) : Nat → NodeHeap α → PreOrderIterator → Ptr →
    Except TreeFault (NodeHeap α)
  | 0, _, _, _ => .error .endless
  | fuel + 1, h, it, toIt =>
    if it.node = other.feet then .ok h
    else do
      let x ← h.read it.node
      let (h, toIt) ← t.insert A h toIt x.data
      let it ← it.skipChildren.incr h
      copyHeads other fuel h it toIt

/-- The second loop of `copy_`. -/
def copyTrees (other : Tree) : Nat → NodeHeap α → PreOrderIterator → PreOrderIterator →
    Except TreeFault (NodeHeap α)
  | 0, _, _, _ => .error .endless
  | fuel + 1, h, it, toIt =>
    if it.node = other.feet then .ok h
    else do
      let (h, tmp) ← t.replace A h toIt.node it.node
      let toIt ← PreOrderIterator.incr h { node := tmp, skipCurrentChildren := true }
      let it ← it.skipChildren.incr h
      copyTrees other fuel h it toIt

/-- `copy_`. -/
def copy (other : Tree) : Except TreeFault (NodeHeap α) := do
  let h ← t.clear h
  let it ← other.begin h
  let toIt ← t.begin h
  let h ← t.copyHeads A other h.fuel h { node := it } toIt
  let toIt ← t.begin h
  let it ← other.begin h
  t.copyTrees A other h.fuel h { node := it } { node := toIt }

/-- `operator=`. -/
def assign (other : Tree) : Except TreeFault (NodeHeap α) :=
  if t ≠ other then t.copy A h other else .ok h

/-- `tree(const tree&)`. -/
def copyConstruct [Inhabited α] (other : Tree) : Except TreeFault (NodeHeap α × Tree) := do
  let (h, t) ← headInitialise A h
  let h ← t.copy A h other
  .ok (h, t)

end Tree

end DepTaint
