import StraightLine.Proofs.GraphHistory

/-!
# Graphs that are one path

A graph in which the first vertices, in order of insertion, form one path and the others have no
edges.  The flow graph of a program is of this kind at every moment of its construction.

## Main definitions

* `Digraph.IsPath g values n` — the vertices of `g` are `values`, and its edges join each of the
  first `n` of them to the next.

## Main statements

* `Digraph.IsPath.addVertex`, `Digraph.IsPath.addEdge` — how a path grows.
* `Digraph.IsPath.edges_eq`, `Digraph.IsPath.containsEdge_iff` — the edges are the pairs of
  neighbours.
* `Digraph.IsPath.reachableFrom_eq` — breadth-first search from the first vertex walks the path.

## Design notes

* **The arena is given in closed form,** as the list of nodes that the path has.  Every observation
  of the graph is then a computation on that list.
-/

namespace StraightLine

namespace Digraph

variable {α : Type}

theorem search_nil (g : Digraph α) (steps : Nat) (settled : List Nat) :
    g.search steps settled [] = settled := by
  cases steps <;> rfl

/-- The node at a place of a path with `n` vertices: it has an edge to the next
place and one from the place before, where these are on the path.  Behind the
path a node has no edges. -/
def pathNode (n i : Nat) (value : α) : Node α :=
  ⟨value, if i + 1 < n then [i + 1] else [], if 0 < i ∧ i < n then [i - 1] else []⟩

section Growth

variable [DecidableEq α]

/-- The vertices of the graph are `values`; the first `n` of them form a path,
and there are no edges besides.

The arena is given completely, predecessors included, although most observations
read successors only: an edge is stored at both ends, and an invariant that left
one of them out would not say what the next edge is added to. -/
structure IsPath (g : Digraph α) (values : List α) (n : Nat) : Prop where
  /-- The path runs through vertices. -/
  le_length : n ≤ values.length
  /-- The arena, node by node. -/
  nodes : g.nodes.toList = values.mapIdx (pathNode n)
  /-- The index finds each value at its place, and nothing else. -/
  index : ∀ value id, g.idOf? value = some id ↔ values[id]? = some value
  /-- A path has one edge less than vertices. -/
  edgeCount : g.edgeCount = n - 1

variable {g : Digraph α} {values : List α} {n : Nat}

theorem isPath_empty : (empty : Digraph α).IsPath [] 0 where
  le_length := Nat.le_refl 0
  nodes := rfl
  index := by
    intro value id
    simp [idOf?, empty]
  edgeCount := rfl

namespace IsPath

theorem size_eq (h : g.IsPath values n) : g.nodes.size = values.length := by
  rw [← Array.length_toList, h.nodes, List.length_mapIdx]

theorem getElem?_nodes (h : g.IsPath values n) (i : Nat) :
    g.nodes[i]? = values[i]?.map (pathNode n i) := by
  rw [← Array.getElem?_toList, h.nodes, List.getElem?_mapIdx]

theorem value?_eq (h : g.IsPath values n) (i : Nat) : g.value? i = values[i]? := by
  rw [value?, h.getElem?_nodes]
  cases values[i]? <;> rfl

theorem idOf?_eq_none (h : g.IsPath values n) {value : α} (hvalue : value ∉ values) :
    g.idOf? value = none := by
  cases hid : g.idOf? value with
  | none => rfl
  | some id => exact absurd (List.mem_of_getElem? ((h.index value id).mp hid)) hvalue

/-- A path of one vertex has no edges, so that vertex can be put on it.  This is
the first action of a program, which no edge leads to. -/
theorem one (h : g.IsPath values 0) (hne : values ≠ []) : g.IsPath values 1 where
  le_length := List.length_pos_iff.mpr hne
  nodes := by
    rw [h.nodes]
    congr 1
    funext i value
    simp only [pathNode, Node.mk.injEq, true_and]
    constructor
    · rw [if_neg (by omega), if_neg (by omega)]
    · rw [if_neg (by omega), if_neg (by omega)]
  index := h.index
  edgeCount := h.edgeCount

/-- A new vertex without edges leaves the path alone. -/
theorem addVertex (h : g.IsPath values n) {value : α} (hvalue : value ∉ values) :
    (g.addVertex value).1.IsPath (values ++ [value]) n := by
  rw [addVertex_of_none (h.idOf?_eq_none hvalue)]
  refine ⟨?le_length, ?nodes, ?index, h.edgeCount⟩
  case le_length =>
    have hle := h.le_length
    rw [List.length_append]
    omega
  case nodes =>
    have hle := h.le_length
    have hlast : pathNode n values.length value = ⟨value, [], []⟩ := by
      have hout : ¬ values.length + 1 < n := by omega
      have hin : ¬ (0 < values.length ∧ values.length < n) := by omega
      simp only [pathNode, if_neg hout, if_neg hin]
    rw [Array.toList_push, h.nodes, List.mapIdx_concat, hlast]
  case index =>
    intro other id
    have hold := h.index other id
    show (g.index.insert value g.nodes.size).get? other = some id ↔ _
    rw [Dictionary.get?_insert, h.size_eq, List.getElem?_append]
    -- The index is asked for the new value, or for another one, which keeps its position.
    by_cases hother : value = other
    · subst hother
      rw [if_pos rfl, Option.some.injEq]
      constructor
      · rintro rfl
        simp
      · intro hget
        split at hget
        · exact absurd (List.mem_of_getElem? hget) hvalue
        · have hlt : id - values.length < [value].length := (List.getElem?_eq_some_iff.mp hget).1
          simp only [List.length_singleton] at hlt
          omega
    · rw [if_neg hother]
      show g.idOf? other = some id ↔ _
      rw [hold]
      split
      · exact Iff.rfl
      · rename_i hge
        have hnone : values[id]? = none := List.getElem?_eq_none (by omega)
        rw [hnone]
        constructor
        · intro hget
          cases hget
        · intro hget
          have hmem := List.mem_of_getElem? hget
          rw [List.mem_singleton] at hmem
          exact absurd hmem.symm hother

/-- An edge from the last vertex of the path to the next vertex of the graph
makes the path longer.  The vertex has to be in the graph already and to come
right behind the path; so the construction inserts a vertex before it links it. -/
theorem addEdge {before : List α} {source target : α}
    (h : g.IsPath (before ++ [source, target]) (before.length + 1)) :
    (g.addEdge source target).1.IsPath (before ++ [source, target]) (before.length + 2) := by
  have hsource : g.idOf? source = some before.length := (h.index _ _).mpr (by simp)
  have htarget : g.idOf? target = some (before.length + 1) := (h.index _ _).mpr (by simp)
  have hlinked : g.linked before.length (before.length + 1) = false := by
    simp [linked, h.getElem?_nodes, pathNode]
  simp only [Digraph.addEdge, addVertex_of_some hsource, addVertex_of_some htarget, hlinked]
  refine ⟨by simp, ?nodes, ?index, ?edgeCount⟩
  case nodes =>
    show ((g.update before.length _).update (before.length + 1) _).nodes.toList = _
    rw [nodes_update, nodes_update, h.nodes]
    -- Only the two ends change: the source gains its successor, the target its predecessor.
    apply List.ext_getElem?
    intro i
    rw [List.getElem?_modify, List.getElem?_modify, List.getElem?_mapIdx, List.getElem?_mapIdx]
    cases (before ++ [source, target])[i]? with
    | none => simp
    | some value =>
        simp only [Option.map_some, pathNode]
        by_cases hs : before.length = i
        · subst hs
          simp
        · by_cases ht : before.length + 1 = i
          · subst ht
            simp
          · have hout : i + 1 < before.length + 1 ↔ i + 1 < before.length + 2 := by omega
            have hin : i < before.length + 1 ↔ i < before.length + 2 := by omega
            simp [hs, ht, hout, hin]
  case index =>
    intro value id
    show ((g.update before.length _).update (before.length + 1) _).index.get? value = some id ↔ _
    rw [index_update, index_update]
    exact h.index value id
  case edgeCount =>
    show ((g.update before.length _).update (before.length + 1) _).edgeCount + 1 = _
    rw [edgeCount_update, edgeCount_update, h.edgeCount]
    omega

/-! ## Reading a path -/

theorem vertices_eq (h : g.IsPath values n) : g.vertices = values := by
  rw [vertices, h.nodes]
  apply List.ext_getElem?
  intro i
  simp only [List.getElem?_map, List.getElem?_mapIdx]
  cases values[i]? <;> rfl

theorem vertexCount_eq (h : g.IsPath values n) : g.vertexCount = values.length :=
  h.size_eq

theorem containsVertex_iff (h : g.IsPath values n) (value : α) :
    g.containsVertex value = true ↔ value ∈ values := by
  rw [containsVertex, Option.isSome_iff_exists, List.mem_iff_getElem?]
  exact exists_congr fun id => h.index value id

/-- The edges of the nodes from place `k` on are the pairs of neighbours from
there on.  The list of edges is computed node by node, hence the induction on
what is left of the vertices. -/
private theorem flatMap_pathNode (h : g.IsPath values n) :
    ∀ (rest : List α) (k : Nat), values.drop k = rest →
      (rest.mapIdx fun i => pathNode n (k + i)).flatMap
          (fun node => node.successors.filterMap fun id => (g.value? id).map (node.value, ·)) =
        (rest.take (n - k)).zip (rest.take (n - k)).tail := by
  intro rest
  induction rest with
  | nil => intro k _; simp
  | cons value rest ih =>
      intro k hdrop
      have hrest : values.drop (k + 1) = rest := by
        rw [← List.tail_drop, hdrop]
        rfl
      have hnext : g.value? (k + 1) = rest[0]? := by
        rw [h.value?_eq, ← hrest, List.getElem?_drop, Nat.add_zero]
      have hshift : (fun i => pathNode (α := α) n (k + (i + 1))) =
          fun i => pathNode n (k + 1 + i) := by
        funext i
        rw [Nat.add_assoc, Nat.add_comm 1 i]
      rw [List.mapIdx_cons, List.flatMap_cons, hshift, ih (k + 1) hrest]
      -- The node at `k` has a successor exactly if the path goes on behind it.
      by_cases hlast : k + 1 < n
      · obtain ⟨m, hm⟩ : ∃ m, n - k = m + 2 := ⟨n - k - 2, by omega⟩
        have hm' : n - (k + 1) = m + 1 := by omega
        rw [hm, hm']
        cases rest with
        | nil => simp [pathNode, hlast, hnext]
        | cons next rest => simp [pathNode, hlast, hnext]
      · have hnone : n - (k + 1) = 0 := by omega
        have hone : n - k ≤ 1 := by omega
        have htail : ((value :: rest).take (n - k)).tail = [] := by
          apply List.eq_nil_of_length_eq_zero
          rw [List.length_tail, List.length_take]
          omega
        rw [hnone, htail]
        simp [pathNode, hlast]

/-- The edges, in the order of their sources, are the pairs of neighbours on the path. -/
theorem edges_eq (h : g.IsPath values n) :
    g.edges = (values.take n).zip (values.take n).tail := by
  have hall := h.flatMap_pathNode values 0 (by simp)
  simp only [Nat.zero_add, Nat.sub_zero] at hall
  rw [edges, h.nodes]
  exact hall

theorem linked_iff (h : g.IsPath values n) (i j : Nat) :
    g.linked i j = true ↔ j = i + 1 ∧ j < n := by
  have hle := h.le_length
  rw [linked, h.getElem?_nodes]
  cases hi : values[i]? with
  | none =>
      have hlen := List.getElem?_eq_none_iff.mp hi
      simp only [Option.map_none, Bool.false_eq_true, false_iff]
      omega
  | some value =>
      simp only [Option.map_some, pathNode, List.contains_iff_mem]
      split
      · rw [List.mem_singleton]
        omega
      · simp only [List.not_mem_nil, false_iff]
        omega

/-- Two values are joined by an edge exactly if they are neighbours on the path. -/
theorem containsEdge_iff (h : g.IsPath values n) (source target : α) :
    g.containsEdge source target = true ↔
      ∃ i, (values.take n)[i]? = some source ∧ (values.take n)[i + 1]? = some target := by
  have hmem : ∀ i value, (values.take n)[i]? = some value ↔ i < n ∧ values[i]? = some value := by
    intro i value
    by_cases hi : i < n
    · rw [List.getElem?_take_of_lt hi]
      exact ⟨fun hvalue => ⟨hi, hvalue⟩, And.right⟩
    · rw [List.getElem?_take_eq_none (by omega)]
      simp [hi]
  simp only [hmem]
  constructor
  · intro hedge
    rw [containsEdge] at hedge
    split at hedge
    · rename_i s t hs ht
      obtain ⟨rfl, hlt⟩ := (h.linked_iff s t).mp hedge
      exact ⟨s, ⟨by omega, (h.index _ _).mp hs⟩, hlt, (h.index _ _).mp ht⟩
    · cases hedge
  · rintro ⟨i, ⟨-, hs⟩, hlt, ht⟩
    rw [containsEdge, (h.index _ _).mpr hs, (h.index _ _).mpr ht]
    exact (h.linked_iff i (i + 1)).mpr ⟨rfl, hlt⟩

/-- From a place on the path the search settles the rest of the path, place by
place.  The queue never holds more than one place, and what is settled lies
behind, so no successor is ever refused. -/
theorem search_eq (h : g.IsPath values n) :
    ∀ (steps i : Nat) (settled : List Nat), i < n → n - i ≤ steps → (∀ x ∈ settled, x < i) →
      g.search steps settled [i] = settled ++ List.range' i (n - i) := by
  intro steps
  induction steps with
  | zero => intro i settled hi hsteps _; omega
  | succ steps ih =>
      intro i settled hi hsteps hsettled
      have hle := h.le_length
      obtain ⟨value, hvalue⟩ : ∃ value, values[i]? = some value :=
        ⟨values[i], List.getElem?_eq_getElem (by omega)⟩
      have hnode : g.nodes[i]? = some (pathNode n i value) := by
        rw [h.getElem?_nodes, hvalue, Option.map_some]
      obtain ⟨m, hm⟩ : ∃ m, n - i = m + 1 := ⟨n - i - 1, by omega⟩
      rw [search, hm, List.range'_succ]
      -- Everything settled lies before `i`, so the queue never holds more than the next place.
      by_cases hnext : i + 1 < n
      · have hfresh : i + 1 ∉ settled := by
          intro hmem
          have hlt := hsettled _ hmem
          omega
        have hrest : n - (i + 1) = m := by omega
        have hsettled' : ∀ x ∈ settled ++ [i], x < i + 1 := by
          intro x hx
          rcases List.mem_append.mp hx with hx | hx
          · have hlt := hsettled x hx
            omega
          · rw [List.mem_singleton] at hx
            omega
        have hstep := ih (i + 1) (settled ++ [i]) hnext (by omega) hsettled'
        rw [hrest, List.append_assoc] at hstep
        simpa [hnode, pathNode, hnext, hfresh] using hstep
      · have hzero : m = 0 := by omega
        subst hzero
        simp [hnode, pathNode, hnext, search_nil]

/-- Breadth-first search from the first vertex visits the path in order, and nothing else. -/
theorem reachableFrom_eq (h : g.IsPath values n) (hn : 0 < n) {start : α}
    (hstart : values[0]? = some start) : g.reachableFrom start = values.take n := by
  have hplaces : ∀ m, (List.range m).filterMap g.value? = values.take m := by
    intro m
    induction m with
    | zero => simp
    | succ m ih =>
        rw [List.range_succ, List.filterMap_append, ih, List.take_add_one]
        cases hm : values[m]? <;> simp [h.value?_eq, hm]
  have hle := h.le_length
  rw [reachableFrom, (h.index start 0).mpr hstart]
  show (g.search g.vertexCount [] [0]).filterMap g.value? = values.take n
  rw [h.search_eq g.vertexCount 0 [] hn (by rw [h.vertexCount_eq]; omega) (by simp),
    List.nil_append, Nat.sub_zero, ← List.range_eq_range', hplaces]

end IsPath

end Growth

end Digraph

end StraightLine
