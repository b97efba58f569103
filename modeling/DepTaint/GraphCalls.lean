import DepTaint.Base.Containers
import DepTaint.DependencyGraph

/-!
# GraphCalls

The graph class under any sequence of calls, against an ordered set of typed edges.

What the calls ask for is read off the calls alone: `mentioned` lists the data in order of first
mention, `linked a` the edges of `a` in order of first request, `firstType a b` is the type of the
first request for an edge from `a` to `b`.

* `Refines`: the graph holds what the calls asked for, in that order.
* `run_refines`: it does, after every sequence of calls.
-/

namespace DepTaint

/-- A call of a public method; the last three are the const methods. -/
inductive GraphCall (α : Type) where
  | addDependency (dependent depency : α) (type : Int)
  | getNodeByData (data : α)
  | constGetNodeByData (data : α)
  | depends (node1 node2 : α)
  | getControlType (node1 node2 : α)
deriving DecidableEq

namespace GraphCall

variable {α : Type} [DecidableEq α]

/-- The graph after one call. The const overload of `getNodeByData`, which `depends` and
`getControlType` use, creates no node. -/
def exec (g : DependencyGraph α) : GraphCall α → DependencyGraph α
  | .addDependency a b t => g.addDependency a b t
  | .getNodeByData a => g.getNodeByData a
  | .constGetNodeByData _ | .depends _ _ | .getControlType _ _ => g

/-- The graph after the calls, from a new graph. -/
def run (calls : List (GraphCall α)) : DependencyGraph α := calls.foldl exec .empty

/-! ## What the calls ask for -/

/-- The data a call looks up or creates, in order. -/
def mentions : GraphCall α → List α
  | .addDependency a b _ => [a, b]
  | .getNodeByData a => [a]
  | _ => []

/-- The edge from `a` that a call requests. -/
def linkFrom (a : α) : GraphCall α → Option (α × Int)
  | .addDependency a' b t => if a' = a then some (b, t) else none
  | _ => none

/-- The type of the edge from `a` to `b` that a call requests. -/
def typeOf (a b : α) : GraphCall α → Option Int
  | .addDependency a' b' t => if a' = a ∧ b' = b then some t else none
  | _ => none

/-- The data mentioned, in order of first mention. -/
def mentioned (calls : List (GraphCall α)) : List α := (calls.flatMap mentions).eraseDups

/-- The edges requested from `a`, in order of first request. -/
def linked (calls : List (GraphCall α)) (a : α) : List (α × Int) :=
  (calls.filterMap (linkFrom a)).eraseDups

/-- The type of the first requested edge from `a` to `b`. -/
def firstType (calls : List (GraphCall α)) (a b : α) : Option Int := calls.findSome? (typeOf a b)

theorem mem_filterMap_linkFrom {calls : List (GraphCall α)} {a b : α} {t : Int} :
    (b, t) ∈ calls.filterMap (linkFrom a) ↔ .addDependency a b t ∈ calls := by
  rw [List.mem_filterMap]
  constructor
  · intro hx
    obtain ⟨c, hc, hl⟩ := hx
    cases c with
    | addDependency a' b' t' =>
      simp only [linkFrom, Option.ite_none_right_eq_some, Option.some.injEq, Prod.mk.injEq] at hl
      obtain ⟨rfl, rfl, rfl⟩ := hl
      exact hc
    | _ => cases hl
  · intro h
    exact ⟨_, h, by simp [linkFrom]⟩

/-- The first request for an edge from `a` to `b` is the first edge to `b` among those of `a`. -/
theorem find?_filterMap_linkFrom {calls : List (GraphCall α)} {a b : α} {t : Int}
    (h : firstType calls a b = some t) :
    (calls.filterMap (linkFrom a)).find? (fun l => l.1 = b) = some (b, t) := by
  unfold firstType at h
  induction calls with
  | nil => cases h
  | cons c cs ih =>
    rw [List.findSome?_cons] at h
    rw [List.filterMap_cons]
    cases c with
    | addDependency a' b' t' =>
      by_cases ha : a' = a
      · by_cases hb : b' = b
        · simp only [typeOf, ha, hb, and_self, if_true, Option.some.injEq] at h
          simp [linkFrom, ha, hb, h]
        · simp only [typeOf, hb, and_false, if_false] at h
          simp only [linkFrom, ha, if_true, List.find?_cons, hb, decide_false]
          exact ih h
      · simp only [typeOf, ha, false_and, if_false] at h
        simp only [linkFrom, ha, if_false]
        exact ih h
    | _ => exact ih h

/-- A first occurrence is found among the distinct elements as in the list. -/
theorem find?_eraseDups {β : Type} [BEq β] [LawfulBEq β] [DecidableEq β] (p : β → Bool) (xs : List β) :
    xs.eraseDups.find? p = xs.find? p := by
  induction xs using List.reverseRecOn with
  | nil => rfl
  | append_singleton xs x ih =>
    rw [eraseDups_snoc]
    split
    · rename_i hx
      rw [ih, List.find?_append]
      cases hf : xs.find? p with
      | some y => rfl
      | none => simp [List.find?_eq_none.mp hf x hx]
    · rw [List.find?_append, List.find?_append, ih]

/-! ## The refinement -/

/-- The graph holds what the calls asked for. -/
structure Refines (calls : List (GraphCall α)) (g : DependencyGraph α) : Prop where
  nodes : g.nodes.map DependencyNode.data = mentioned calls
  dataToNode : ∀ a i, g.dataToNode a = some i ↔ (mentioned calls)[i]? = some a
  rootNode : (g.rootNode.bind (g.nodes[·]?)).map DependencyNode.data =
    (calls.flatMap mentions).head?
  linksFrom : ∀ a, g.linksFrom a = linked calls a
  count : ∀ a b t, (g.linksFrom a).count (b, t) = if .addDependency a b t ∈ calls then 1 else 0
  depends : ∀ a b, g.depends a b = true ↔ ∃ t, .addDependency a b t ∈ calls
  getControlType : ∀ a b t, firstType calls a b = some t → g.getControlType a b = some t
  const : ∀ a b, exec g (.constGetNodeByData a) = g ∧ exec g (.depends a b) = g ∧
    exec g (.getControlType a b) = g

theorem data_getNodeByData {g : DependencyGraph α} {xs : List α}
    (h : g.nodes.map DependencyNode.data = xs.eraseDups) (a : α) :
    (g.getNodeByData a).nodes.map DependencyNode.data = (xs ++ [a]).eraseDups := by
  rw [eraseDups_snoc]
  cases ha : g.dataToNode a with
  | some i =>
    obtain ⟨n, hn, hna⟩ := (g.node_iff a i).mp ha
    have hmem : a ∈ xs := by
      rw [← List.mem_eraseDups, ← h]
      exact List.mem_map.mpr ⟨n, List.mem_of_getElem? hn, hna⟩
    rw [DependencyGraph.getNodeByData_of_some ha, if_pos hmem, h]
  | none =>
    have hnot : a ∉ xs := by
      rw [← List.mem_eraseDups, ← h, List.mem_map]
      intro hx
      obtain ⟨n, hn, hna⟩ := hx
      obtain ⟨i, hi⟩ := List.mem_iff_getElem?.mp hn
      rw [(g.node_iff a i).mpr ⟨n, hi, hna⟩] at ha
      cases ha
    rw [DependencyGraph.nodes_getNodeByData_of_none ha, if_neg hnot, List.map_append, h]
    rfl

/-- The two parts that the methods build up. -/
theorem run_nodes_links (calls : List (GraphCall α)) :
    (run calls).nodes.map DependencyNode.data = mentioned calls ∧
      ∀ a, (run calls).linksFrom a = linked calls a := by
  unfold run
  refine List.reverseRecOn calls ⟨rfl, fun a => rfl⟩ fun calls c ih => ?_
  obtain ⟨hn, hl⟩ := ih
  rw [List.foldl_append, List.foldl_cons, List.foldl_nil, mentioned, List.flatMap_append,
    List.flatMap_singleton]
  cases c with
  | addDependency a b t =>
    constructor
    · have h2 := data_getNodeByData (data_getNodeByData hn a) b
      simp only [exec, DependencyGraph.addDependency, DependencyGraph.map_data_link, h2, mentions]
      simp
    · intro x
      simp only [exec, DependencyGraph.linksFrom_addDependency, hl, linked, List.filterMap_append,
        List.filterMap_cons, List.filterMap_nil, linkFrom]
      by_cases hx : x = a
      · subst hx
        rw [if_pos rfl, if_pos rfl, eraseDups_snoc]
        simp only [List.mem_eraseDups]
      · simp [hx, Ne.symm hx]
  | getNodeByData a =>
    refine ⟨data_getNodeByData hn a, fun x => ?_⟩
    rw [exec, DependencyGraph.linksFrom_getNodeByData, hl, linked, linked, List.filterMap_append]
    simp only [List.filterMap_cons, List.filterMap_nil, linkFrom, List.append_nil]
  | constGetNodeByData _ | depends _ _ | getControlType _ _ =>
    refine ⟨by simpa [exec, mentions, mentioned] using hn, fun x => ?_⟩
    rw [exec, hl, linked, linked, List.filterMap_append]
    simp only [List.filterMap_cons, List.filterMap_nil, linkFrom, List.append_nil]

/-- After every sequence of calls on a new graph, the nodes are the data in order of first mention,
vector and map agree, the root is the first datum, and the edges of a datum are those requested, in
order of first request. -/
theorem run_refines (calls : List (GraphCall α)) : Refines calls (run calls) := by
  obtain ⟨hn, hl⟩ := run_nodes_links calls
  have hnode : ∀ a i, (run calls).dataToNode a = some i ↔ (mentioned calls)[i]? = some a := by
    intro a i
    rw [DependencyGraph.node_iff, ← hn, List.getElem?_map, Option.map_eq_some_iff]
  have hmem : ∀ a b t, (run calls).HasLink a b t ↔ .addDependency a b t ∈ calls := by
    intro a b t
    rw [DependencyGraph.HasLink, hl, linked, List.mem_eraseDups, mem_filterMap_linkFrom]
  refine ⟨hn, hnode, ?_, hl, fun a b t => ?_, fun a b => ?_, fun a b t ht => ?_,
    fun _ _ => ⟨rfl, rfl, rfl⟩⟩
  · have hhead : (mentioned calls).head? = (calls.flatMap mentions).head? := by
      unfold mentioned
      cases calls.flatMap mentions with
      | nil => rfl
      | cons x xs => rw [List.eraseDups_cons, List.head?_cons, List.head?_cons]
    rw [← hhead, ← hn, (run calls).root_eq]
    cases (run calls).nodes <;> rfl
  · rw [((run calls).nodup_linksFrom a).count]
    exact if_congr (hmem a b t) rfl rfl
  · rw [DependencyGraph.depends_iff]
    exact exists_congr fun t => hmem a b t
  · refine DependencyGraph.getControlType_of_find? (c := b) ?_
    rw [hl, linked, find?_eraseDups, find?_filterMap_linkFrom ht]

end GraphCall

end DepTaint
