import Mathlib.Data.List.Find
import Mathlib.Data.List.Nodup
import Mathlib.Logic.Function.Basic
import DepTaint.Base.Containers

/-!
# DependencyGraph

The graph class all three passes build (`DependencyGraph.h`): a vector of nodes and a map from a
datum to its node that must stay in step, with nodes created on first mention.

A `DependencyNode*` is the node's index in `mNodes`, a link is a pair of such an index and a type.
The invariant is part of the structure. `linksFrom a` lists the links of `a` by datum; the simp
lemmas say what each operation does to it, and nothing below this module looks at the indices.
-/

namespace DepTaint

/-- `DependencyType`. -/
inductive DependencyType where
  | call
  | control
  | dataGeneral
  | dataDefUse
  | dataRaw
  | parameter
deriving DecidableEq

/-- The `int` an enumerator converts to; links store this `int`. -/
def DependencyType.toInt : DependencyType → Int
  | .call => 0
  | .control => 1
  | .dataGeneral => 2
  | .dataDefUse => 3
  | .dataRaw => 4
  | .parameter => 5

/-- `ControlType`. -/
inductive ControlType where
  | TRUE
  | FALSE
  | OTHER
deriving DecidableEq

def ControlType.toInt : ControlType → Int
  | .TRUE => 0x4
  | .FALSE => 0x8
  | .OTHER => 0xc

structure DependencyNode (α : Type) where
  data : α
  /-- `mDependencies`: the target node and the link type. -/
  dependencies : List (Nat × Int)

namespace DependencyNode

variable {α : Type}

/-- `addDependencyTo`: no double links, self-loops allowed. -/
def addDependencyTo (n : DependencyNode α) (node : Nat) (type : Int) : DependencyNode α :=
  if (node, type) ∈ n.dependencies then n
  else { n with dependencies := n.dependencies ++ [(node, type)] }

@[simp] theorem addDependencyTo_data (n : DependencyNode α) (node : Nat) (type : Int) :
    (n.addDependencyTo node type).data = n.data := by
  unfold addDependencyTo
  split <;> rfl

@[simp] theorem mem_addDependencyTo {n : DependencyNode α} {node : Nat} {type : Int} {l : Nat × Int} :
    l ∈ (n.addDependencyTo node type).dependencies ↔ l ∈ n.dependencies ∨ l = (node, type) := by
  unfold addDependencyTo
  split
  · rename_i h
    constructor
    · exact Or.inl
    · rintro (hl | rfl)
      · exact hl
      · exact h
  · simp

theorem nodup_addDependencyTo {n : DependencyNode α} (h : n.dependencies.Nodup)
    (node : Nat) (type : Int) : (n.addDependencyTo node type).dependencies.Nodup := by
  unfold addDependencyTo
  split
  · exact h
  · rename_i hnot
    refine List.nodup_append.mpr ⟨h, List.nodup_singleton _, fun a ha b hb hab => ?_⟩
    rw [List.mem_singleton.mp hb] at hab
    exact hnot (hab ▸ ha)

def dependsFrom (n : DependencyNode α) (node : Nat) : Bool :=
  n.dependencies.any fun l => l.1 == node

/-- `getControlType`: the type of the first link to `node`, which may be null, and -1 if there is
none. -/
def getControlType (n : DependencyNode α) (node : Option Nat) : Int :=
  match n.dependencies.find? fun l => some l.1 == node with
  | some l => l.2
  | none => -1

end DependencyNode

structure DependencyGraph (α : Type) where
  nodes : List (DependencyNode α)
  dataToNode : α → Option Nat
  rootNode : Option Nat
  /-- The vector and the map agree. -/
  node_iff : ∀ a i, dataToNode a = some i ↔ ∃ n, nodes[i]? = some n ∧ n.data = a
  link_lt : ∀ n ∈ nodes, ∀ l ∈ n.dependencies, l.1 < nodes.length
  links_nodup : ∀ n ∈ nodes, n.dependencies.Nodup
  root_eq : rootNode = nodes.head?.map fun _ => 0

namespace DependencyGraph

variable {α : Type}

/-- `new DependencyGraph()`. -/
def empty : DependencyGraph α where
  nodes := []
  dataToNode _ := none
  rootNode := none
  node_iff := by simp
  link_lt := by simp
  links_nodup := by simp
  root_eq := rfl

/-- The graph after the non-const `getNodeByData a`: a node for `a` is created if there is none. -/
def getNodeByData [DecidableEq α] (g : DependencyGraph α) (a : α) : DependencyGraph α :=
  match h : g.dataToNode a with
  | some _ => g
  | none =>
    { nodes := g.nodes ++ [⟨a, []⟩]
      dataToNode := Function.update g.dataToNode a (some g.nodes.length)
      rootNode := match g.rootNode with
        | some r => some r
        | none => some g.nodes.length
      node_iff := by
        intro b i
        simp only [getElem?_snoc_iff]
        by_cases hb : b = a
        · subst hb
          have hno : ¬ ∃ n, g.nodes[i]? = some n ∧ n.data = b := by
            rw [← g.node_iff, h]
            simp
          rw [Function.update_self, Option.some.injEq]
          constructor
          · rintro rfl
            exact ⟨⟨b, []⟩, .inr ⟨rfl, rfl⟩, rfl⟩
          · rintro ⟨n, hn | ⟨hi, _⟩, hd⟩
            · exact absurd ⟨n, hn, hd⟩ hno
            · exact hi.symm
        · rw [Function.update_of_ne hb, g.node_iff]
          constructor
          · rintro ⟨n, hn, hd⟩
            exact ⟨n, .inl hn, hd⟩
          · rintro ⟨n, hn | ⟨_, rfl⟩, hd⟩
            · exact ⟨n, hn, hd⟩
            · exact absurd hd.symm hb
      link_lt := by
        intro n hn l hl
        rw [List.length_append]
        rcases List.mem_append.mp hn with hn | hn
        · have := g.link_lt n hn l hl
          omega
        · rw [List.mem_singleton.mp hn] at hl
          cases hl
      links_nodup := by
        intro n hn
        rcases List.mem_append.mp hn with hn | hn
        · exact g.links_nodup n hn
        · rw [List.mem_singleton.mp hn]
          exact .nil
      root_eq := by
        rw [g.root_eq]
        cases hg : g.nodes <;> simp }

/-- The node `getNodeByData a` returns once it exists. -/
def nodeIndex (g : DependencyGraph α) (a : α) : Nat := (g.dataToNode a).getD 0

/-- `pFrom->addDependencyTo(pTo, type)` on the nodes of index `i` and `j`. -/
def link (g : DependencyGraph α) (i j : Nat) (type : Int) (hj : j < g.nodes.length) :
    DependencyGraph α where
  nodes := g.nodes.modify i fun n => n.addDependencyTo j type
  dataToNode := g.dataToNode
  rootNode := g.rootNode
  node_iff := by
    intro a k
    rw [g.node_iff, List.getElem?_modify]
    by_cases hik : i = k
    · subst hik
      cases hn : g.nodes[i]? <;> simp
    · simp [hik]
  link_lt := by
    intro n hn l hl
    rw [List.length_modify]
    rcases mem_modify hn with hn | ⟨m, hm, rfl⟩
    · exact g.link_lt n hn l hl
    · rcases DependencyNode.mem_addDependencyTo.mp hl with hl | rfl
      · exact g.link_lt m hm l hl
      · exact hj
  links_nodup := by
    intro n hn
    rcases mem_modify hn with hn | ⟨m, hm, rfl⟩
    · exact g.links_nodup n hn
    · exact DependencyNode.nodup_addDependencyTo (g.links_nodup m hm) _ _
  root_eq := by
    rw [g.root_eq]
    cases hg : g.nodes with
    | nil => simp
    | cons n ns => cases i <;> simp

/-- The target datum and the type of each link in `ls`. -/
def resolve (g : DependencyGraph α) (ls : List (Nat × Int)) : List (α × Int) :=
  ls.filterMap fun l => g.nodes[l.1]?.map fun n => (n.data, l.2)

/-- The links of `a`, in the order of the node's vector. -/
def linksFrom (g : DependencyGraph α) (a : α) : List (α × Int) :=
  match g.dataToNode a with
  | none => []
  | some i =>
    match g.nodes[i]? with
    | none => []
    | some n => g.resolve n.dependencies

/-- The const `depends`. -/
def depends (g : DependencyGraph α) (a b : α) : Bool :=
  match g.dataToNode a, g.dataToNode b with
  | some i, some j =>
    match g.nodes[i]? with
    | some n => n.dependsFrom j
    | none => false
  | _, _ => false

/-- The const `getControlType`; `none` where the source calls it on a null node. -/
def getControlType (g : DependencyGraph α) (a b : α) : Option Int :=
  match g.dataToNode a with
  | none => none
  | some i => g.nodes[i]?.map fun n => n.getControlType (g.dataToNode b)

/-- `g` has a link from `a` to `b` of type `type`. -/
def HasLink (g : DependencyGraph α) (a b : α) (type : Int) : Prop := (b, type) ∈ g.linksFrom a

instance [DecidableEq α] (g : DependencyGraph α) (a b : α) (type : Int) :
    Decidable (g.HasLink a b type) :=
  inferInstanceAs (Decidable (_ ∈ _))

theorem nodeIndex_eq {g : DependencyGraph α} {a : α} {i : Nat} (h : g.dataToNode a = some i) :
    g.nodeIndex a = i := by
  simp [nodeIndex, h]

theorem linksFrom_of_none {g : DependencyGraph α} {a : α} (h : g.dataToNode a = none) :
    g.linksFrom a = [] := by
  simp [linksFrom, h]

theorem linksFrom_of_node {g : DependencyGraph α} {a : α} {i : Nat} {n : DependencyNode α}
    (h : g.dataToNode a = some i) (hn : g.nodes[i]? = some n) :
    g.linksFrom a = g.resolve n.dependencies := by
  simp [linksFrom, h, hn]

theorem resolve_congr {g g' : DependencyGraph α} {ls : List (Nat × Int)}
    (h : ∀ l ∈ ls, g'.nodes[l.1]?.map DependencyNode.data = g.nodes[l.1]?.map DependencyNode.data) :
    g'.resolve ls = g.resolve ls := by
  unfold resolve
  apply List.filterMap_congr
  intro l hl
  have hd := congrArg (Option.map fun b => (b, l.2)) (h l hl)
  rw [Option.map_map, Option.map_map] at hd
  exact hd

/-- Two nodes of equal data are one node. -/
theorem index_unique {g : DependencyGraph α} {i j : Nat} {n m : DependencyNode α}
    (hn : g.nodes[i]? = some n) (hm : g.nodes[j]? = some m) (h : n.data = m.data) : i = j := by
  have hi := (g.node_iff n.data i).mpr ⟨n, hn, rfl⟩
  have hj := (g.node_iff n.data j).mpr ⟨m, hm, h.symm⟩
  rw [hi] at hj
  exact Option.some.inj hj

theorem mem_resolve {g : DependencyGraph α} {ls : List (Nat × Int)} {b : α} {j : Nat} {t : Int}
    {m : DependencyNode α} (hj : g.nodes[j]? = some m) (hb : m.data = b) :
    (b, t) ∈ g.resolve ls ↔ (j, t) ∈ ls := by
  simp only [resolve, List.mem_filterMap, Option.map_eq_some_iff, Prod.mk.injEq]
  constructor
  · rintro ⟨⟨k, t'⟩, hl, n, hn, hd, rfl⟩
    have : k = j := index_unique hn hj (hd.trans hb.symm)
    exact this ▸ hl
  · intro h
    exact ⟨(j, t), h, m, hj, hb, rfl⟩

/-- A node holds no link twice. -/
theorem nodup_linksFrom (g : DependencyGraph α) (a : α) : (g.linksFrom a).Nodup := by
  cases ha : g.dataToNode a with
  | none =>
    rw [linksFrom_of_none ha]
    exact .nil
  | some i =>
    obtain ⟨n, hn, _⟩ := (g.node_iff a i).mp ha
    rw [linksFrom_of_node ha hn]
    refine (g.links_nodup n (List.mem_of_getElem? hn)).filterMap fun l l' b hb hb' => ?_
    obtain ⟨m, hm, rfl⟩ := Option.map_eq_some_iff.mp hb
    obtain ⟨m', hm', he⟩ := Option.map_eq_some_iff.mp hb'
    obtain ⟨hd, ht⟩ := Prod.mk.inj he
    exact Prod.ext (index_unique hm hm' hd.symm) ht.symm

@[simp] theorem hasLink_empty (a b : α) (t : Int) : ¬ (empty : DependencyGraph α).HasLink a b t := by
  simp [HasLink, linksFrom, empty]

section Operations

variable [DecidableEq α]

theorem getNodeByData_of_some {g : DependencyGraph α} {a : α} {i : Nat}
    (h : g.dataToNode a = some i) : g.getNodeByData a = g := by
  unfold getNodeByData
  split
  · rfl
  · rename_i hn
    rw [h] at hn
    cases hn

theorem nodes_getNodeByData_of_none {g : DependencyGraph α} {a : α} (h : g.dataToNode a = none) :
    (g.getNodeByData a).nodes = g.nodes ++ [⟨a, []⟩] := by
  unfold getNodeByData
  split
  · rename_i hs
    rw [h] at hs
    cases hs
  · rfl

theorem dataToNode_getNodeByData_of_none {g : DependencyGraph α} {a : α}
    (h : g.dataToNode a = none) :
    (g.getNodeByData a).dataToNode = Function.update g.dataToNode a (some g.nodes.length) := by
  unfold getNodeByData
  split
  · rename_i hs
    rw [h] at hs
    cases hs
  · rfl

/-- A datum that is looked up has a node afterwards. -/
theorem exists_dataToNode_getNodeByData (g : DependencyGraph α) (a : α) :
    ∃ i, (g.getNodeByData a).dataToNode a = some i := by
  cases h : g.dataToNode a with
  | some i => exact ⟨i, by rw [getNodeByData_of_some h, h]⟩
  | none => exact ⟨_, by rw [dataToNode_getNodeByData_of_none h, Function.update_self]⟩

/-- A lookup moves no node. -/
theorem dataToNode_getNodeByData {g : DependencyGraph α} {a b : α} {i : Nat}
    (h : g.dataToNode b = some i) : (g.getNodeByData a).dataToNode b = some i := by
  cases ha : g.dataToNode a with
  | some j => rw [getNodeByData_of_some ha, h]
  | none =>
    have hne : b ≠ a := by
      rintro rfl
      rw [h] at ha
      cases ha
    rw [dataToNode_getNodeByData_of_none ha, Function.update_of_ne hne, h]

theorem nodeIndex_lt (g : DependencyGraph α) (a : α) :
    (g.getNodeByData a).nodeIndex a < (g.getNodeByData a).nodes.length := by
  obtain ⟨i, hi⟩ := g.exists_dataToNode_getNodeByData a
  obtain ⟨n, hn, _⟩ := (node_iff _ a i).mp hi
  rw [nodeIndex_eq hi]
  exact (List.getElem?_eq_some_iff.mp hn).1

/-- `addDependency`: both nodes are looked up, or created, before the link is added. -/
def addDependency (g : DependencyGraph α) (dependent depency : α) (type : Int) :
    DependencyGraph α :=
  let g' := (g.getNodeByData dependent).getNodeByData depency
  g'.link (g'.nodeIndex dependent) (g'.nodeIndex depency) type (nodeIndex_lt _ _)

@[simp] theorem linksFrom_getNodeByData (g : DependencyGraph α) (a x : α) :
    (g.getNodeByData a).linksFrom x = g.linksFrom x := by
  cases ha : g.dataToNode a with
  | some i => rw [getNodeByData_of_some ha]
  | none =>
    have hnodes := nodes_getNodeByData_of_none ha
    have hmap := dataToNode_getNodeByData_of_none ha
    by_cases hx : x = a
    · subst hx
      rw [linksFrom_of_none ha, linksFrom_of_node (i := g.nodes.length) (n := ⟨x, []⟩)
        (by rw [hmap, Function.update_self]) (by rw [hnodes]; simp)]
      rfl
    · cases hi : g.dataToNode x with
      | none =>
        rw [linksFrom_of_none hi, linksFrom_of_none (by rw [hmap, Function.update_of_ne hx, hi])]
      | some i =>
        obtain ⟨n, hn, _⟩ := (g.node_iff x i).mp hi
        have hlt := (List.getElem?_eq_some_iff.mp hn).1
        rw [linksFrom_of_node hi hn, linksFrom_of_node (i := i) (n := n)
          (by rw [hmap, Function.update_of_ne hx, hi])
          (by rw [hnodes, List.getElem?_append_left hlt, hn])]
        apply resolve_congr
        intro l hl
        rw [hnodes, List.getElem?_append_left (g.link_lt n (List.mem_of_getElem? hn) l hl)]

omit [DecidableEq α] in
/-- A link changes no data. -/
theorem map_data_link (g : DependencyGraph α) (i j : Nat) (t : Int) (hj : j < g.nodes.length) :
    (g.link i j t hj).nodes.map DependencyNode.data = g.nodes.map DependencyNode.data := by
  refine List.ext_getElem? fun k => ?_
  simp only [link, List.getElem?_map, List.getElem?_modify]
  cases g.nodes[k]? with
  | none => rfl
  | some n => by_cases hik : i = k <;> simp [hik]

/-- `a` is the datum of a node. -/
def HasNode (g : DependencyGraph α) (a : α) : Prop := a ∈ g.nodes.map DependencyNode.data

theorem hasNode_getNodeByData {g : DependencyGraph α} {a x : α} :
    (g.getNodeByData a).HasNode x ↔ g.HasNode x ∨ x = a := by
  unfold HasNode
  cases ha : g.dataToNode a with
  | some i =>
    obtain ⟨n, hn, hna⟩ := (g.node_iff a i).mp ha
    rw [getNodeByData_of_some ha]
    refine ⟨Or.inl, ?_⟩
    rintro (h | rfl)
    · exact h
    · exact List.mem_map.mpr ⟨n, List.mem_of_getElem? hn, hna⟩
  | none =>
    rw [nodes_getNodeByData_of_none ha, List.map_append, List.mem_append]
    simp

theorem hasNode_addDependency {g : DependencyGraph α} {a b x : α} {t : Int} :
    (g.addDependency a b t).HasNode x ↔ g.HasNode x ∨ x = a ∨ x = b := by
  rw [HasNode, addDependency, map_data_link, ← HasNode, hasNode_getNodeByData,
    hasNode_getNodeByData, or_assoc]

theorem linksFrom_link {g : DependencyGraph α} {a b : α} {i j : Nat} {t : Int} {hj : j < g.nodes.length}
    (ha : g.dataToNode a = some i) (hb : g.dataToNode b = some j) (x : α) :
    (g.link i j t hj).linksFrom x =
      if x = a then
        if (b, t) ∈ g.linksFrom a then g.linksFrom a else g.linksFrom a ++ [(b, t)]
      else g.linksFrom x := by
  obtain ⟨n, hn, hna⟩ := (g.node_iff a i).mp ha
  obtain ⟨m, hm, hmb⟩ := (g.node_iff b j).mp hb
  -- the link changes no node's data, so links resolve as before
  have hres : ∀ ls, (g.link i j t hj).resolve ls = g.resolve ls := by
    intro ls
    apply resolve_congr
    intro l _
    simp only [link, List.getElem?_modify]
    cases g.nodes[l.1]? with
    | none => rfl
    | some k => by_cases hil : i = l.1 <;> simp [hil]
  split
  · rename_i hx
    subst hx
    rw [linksFrom_of_node (g := g.link i j t hj) (i := i) (n := n.addDependencyTo j t) ha
      (by simp [link, hn]), hres, linksFrom_of_node ha hn]
    simp only [mem_resolve hm hmb]
    unfold DependencyNode.addDependencyTo
    split
    · rfl
    · simp [resolve, hm, hmb]
  · rename_i hx
    cases hk : g.dataToNode x with
    | none => rw [linksFrom_of_none hk, linksFrom_of_none (g := g.link i j t hj) hk]
    | some k =>
      obtain ⟨c, hc, hcx⟩ := (g.node_iff x k).mp hk
      have hik : i ≠ k := by
        rintro rfl
        rw [hn] at hc
        cases hc
        exact hx (hcx.symm.trans hna)
      rw [linksFrom_of_node hk hc, linksFrom_of_node (g := g.link i j t hj) (i := k) (n := c) hk
        (by simp [link, hik, hc]), hres]

/-- The effect of `addDependency` on the links of every datum. -/
theorem linksFrom_addDependency (g : DependencyGraph α) (a b : α) (t : Int) (x : α) :
    (g.addDependency a b t).linksFrom x =
      if x = a then
        if (b, t) ∈ g.linksFrom a then g.linksFrom a else g.linksFrom a ++ [(b, t)]
      else g.linksFrom x := by
  obtain ⟨i, hi⟩ := g.exists_dataToNode_getNodeByData a
  obtain ⟨j, hj⟩ := (g.getNodeByData a).exists_dataToNode_getNodeByData b
  have hi' := dataToNode_getNodeByData (a := b) hi
  simp only [addDependency]
  rw [linksFrom_link (a := a) (b := b) (by rw [nodeIndex_eq hi', hi'])
    (by rw [nodeIndex_eq hj, hj])]
  simp only [linksFrom_getNodeByData]

@[simp] theorem hasLink_getNodeByData {g : DependencyGraph α} {a x y : α} {t : Int} :
    (g.getNodeByData a).HasLink x y t ↔ g.HasLink x y t := by
  simp [HasLink]

/-- `addDependency` adds the link it is given and no other. -/
@[simp] theorem hasLink_addDependency {g : DependencyGraph α} {a b x y : α} {s t : Int} :
    (g.addDependency a b t).HasLink x y s ↔ g.HasLink x y s ∨ (x = a ∧ y = b ∧ s = t) := by
  unfold HasLink
  rw [linksFrom_addDependency]
  split
  · rename_i hx
    subst hx
    split
    · rename_i hmem
      constructor
      · exact Or.inl
      · rintro (h | ⟨_, rfl, rfl⟩)
        · exact h
        · exact hmem
    · simp
  · rename_i hx
    simp [hx]

/-- A link added under a condition. -/
theorem hasLink_ite {c : Prop} [Decidable c] {g : DependencyGraph α} {a b x y : α} {s t : Int} :
    (if c then g.addDependency a b t else g).HasLink x y s ↔
      g.HasLink x y s ∨ (c ∧ x = a ∧ y = b ∧ s = t) := by
  split
  · rename_i h
    simp [h]
  · rename_i h
    simp [h]

end Operations

/-- `depends` holds exactly when there is a link of some type. -/
theorem depends_iff {g : DependencyGraph α} {a b : α} :
    g.depends a b = true ↔ ∃ t, g.HasLink a b t := by
  unfold depends HasLink
  cases ha : g.dataToNode a with
  | none => simp [linksFrom_of_none ha]
  | some i =>
    obtain ⟨n, hn, _⟩ := (g.node_iff a i).mp ha
    rw [linksFrom_of_node ha hn]
    cases hb : g.dataToNode b with
    | none =>
      simp only [Bool.false_eq_true, false_iff, not_exists]
      intro t h
      obtain ⟨l, _, hl⟩ := List.mem_filterMap.mp h
      obtain ⟨m, hm, he⟩ := Option.map_eq_some_iff.mp hl
      have hmb := (g.node_iff b l.1).mpr ⟨m, hm, congrArg Prod.fst he⟩
      rw [hb] at hmb
      cases hmb
    | some j =>
      obtain ⟨m, hm, hmb⟩ := (g.node_iff b j).mp hb
      simp [hn, DependencyNode.dependsFrom, mem_resolve hm hmb]

/-- `getControlType` answers with the first link to `b`. -/
theorem getControlType_of_find? [DecidableEq α] {g : DependencyGraph α} {a b c : α} {t : Int}
    (h : (g.linksFrom a).find? (fun l => l.1 = b) = some (c, t)) : g.getControlType a b = some t := by
  obtain rfl : c = b := by simpa using List.find?_some h
  unfold getControlType
  cases ha : g.dataToNode a with
  | none => simp [linksFrom_of_none ha] at h
  | some i =>
    obtain ⟨n, hn, _⟩ := (g.node_iff a i).mp ha
    rw [linksFrom_of_node ha hn, resolve, List.find?_filterMap] at h
    obtain ⟨⟨k, t'⟩, hfind, hk⟩ := Option.bind_eq_some_iff.mp h
    obtain ⟨m, hm, he⟩ := Option.map_eq_some_iff.mp hk
    cases he
    -- a link resolves to `c` exactly if it leads to the node of `c`
    have hc := (g.node_iff m.data k).mpr ⟨m, hm, rfl⟩
    have hp : n.dependencies.find? (fun l => some l.1 == g.dataToNode m.data) = some (k, t') := by
      rw [← hfind]
      refine List.find?_congr fun l hl => ?_
      have hlt := g.link_lt n (List.mem_of_getElem? hn) l hl
      have hd : g.nodes[l.1].data = m.data ↔ l.1 = k := by
        constructor
        · intro hd
          exact index_unique (List.getElem?_eq_getElem hlt) hm hd
        · intro hlk
          have hml : g.nodes[l.1]? = some m := hlk ▸ hm
          rw [List.getElem?_eq_getElem hlt, Option.some.injEq] at hml
          rw [hml]
      rw [hc, List.getElem?_eq_getElem hlt]
      simp [hd, beq_eq_decide]
    simp [hn, DependencyNode.getControlType, hp]

/-- The links from `a` to `b`. -/
def linksBetween [DecidableEq α] (g : DependencyGraph α) (a b : α) : List (α × Int) :=
  (g.linksFrom a).filter fun l => l.1 = b

/-- Links of one type make one link. -/
theorem length_linksBetween_le_one [DecidableEq α] {g : DependencyGraph α} {a b : α}
    (h : ∀ t t', g.HasLink a b t → g.HasLink a b t' → t = t') : (g.linksBetween a b).length ≤ 1 := by
  have hnd : (g.linksBetween a b).Nodup := (g.nodup_linksFrom a).filter _
  have heq : ∀ l ∈ g.linksBetween a b, ∀ l' ∈ g.linksBetween a b, l = l' := by
    rintro ⟨c, t⟩ hl ⟨c', t'⟩ hl'
    obtain ⟨hm, hc⟩ := List.mem_filter.mp hl
    obtain ⟨hm', hc'⟩ := List.mem_filter.mp hl'
    have hcb : c = b := by simpa using hc
    have hcb' : c' = b := by simpa using hc'
    rw [hcb] at hm ⊢
    rw [hcb'] at hm' ⊢
    rw [h t t' hm hm']
  cases hls : g.linksBetween a b with
  | nil => simp
  | cons l ls =>
    cases ls with
    | nil => simp
    | cons l' ls =>
      rw [hls] at hnd heq
      have := heq l (by simp) l' (by simp)
      simp [this] at hnd

/-- `getControlType` answers with the only type there is. -/
theorem getControlType_of_hasLink [DecidableEq α] {g : DependencyGraph α} {a b : α} {t : Int}
    (hl : g.HasLink a b t) (h : ∀ t', g.HasLink a b t' → t' = t) :
    g.getControlType a b = some t := by
  cases hf : (g.linksFrom a).find? fun l => l.1 = b with
  | none =>
    have := List.find?_eq_none.mp hf (b, t) hl
    simp at this
  | some l =>
    obtain ⟨c, t'⟩ := l
    obtain rfl : c = b := by simpa using List.find?_some hf
    rw [h t' (List.mem_of_find?_eq_some hf)] at hf
    exact getControlType_of_find? hf

end DependencyGraph

end DepTaint
