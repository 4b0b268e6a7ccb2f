import Mathlib.Data.List.Induction
import Mathlib.Data.List.Nodup
import StraightLine.Digraph

/-!
# Graphs and the calls that built them

A graph keeps its vertices in an arena, finds them through an index, and stores every edge at both
of its ends.  Whatever calls built it, all of this is determined by two lists: the values that were
mentioned, and the pairs that were joined, each without its repetitions.

## Main definitions

* `Digraph.Call`, `Digraph.build` — a sequence of calls on an empty graph.
* `Digraph.mentions`, `Digraph.pairs` — the values and the pairs of values in it.
* `Digraph.Represents g vs es` — the graph `g` has the vertices `vs` and the edges `es`.

## Main statements

* `Digraph.Represents.addVertex`, `Digraph.Represents.addEdge` — what one call adds.
* `Digraph.represents_build` — hence a graph represents what its calls mention and join.
* `Digraph.build_records_calls` — everything that can be observed of the graph, by its calls.

## Design notes

* **The arena is given in closed form,** node by node, from the two lists.  The redundant parts of a
  graph then agree because they are computed from the same list, and no invariant has to link them.
* **Both lists only grow at their ends,** so a position that was given out never changes.
-/

namespace StraightLine

namespace Digraph

variable {α : Type}

/-! ## Single operations on the arena -/

theorem nodes_update (g : Digraph α) (id : Nat) (change : Node α → Node α) :
    (g.update id change).nodes.toList = g.nodes.toList.modify id change := by
  unfold update
  cases hid : g.nodes[id]? with
  | none =>
      have hle : g.nodes.toList.length ≤ id := by
        simpa using Array.getElem?_eq_none_iff.mp hid
      rw [List.modify_eq_self hle]
  | some node =>
      apply List.ext_getElem?
      intro j
      obtain ⟨hlt, rfl⟩ := Array.getElem?_eq_some_iff.mp hid
      by_cases hj : id = j
      · subst hj
        simp [hlt]
      · simp [hj]

@[simp] theorem index_update (g : Digraph α) (id : Nat) (change : Node α → Node α) :
    (g.update id change).index = g.index := by
  unfold update
  split <;> rfl

@[simp] theorem edgeCount_update (g : Digraph α) (id : Nat) (change : Node α → Node α) :
    (g.update id change).edgeCount = g.edgeCount := by
  unfold update
  split <;> rfl

variable [DecidableEq α]

theorem addVertex_of_some {g : Digraph α} {value : α} {id : Nat} (h : g.idOf? value = some id) :
    g.addVertex value = (g, id) := by
  simp [addVertex, h]

theorem addVertex_of_none {g : Digraph α} {value : α} (h : g.idOf? value = none) :
    (g.addVertex value).1 =
      { g with
        nodes := g.nodes.push ⟨value, [], []⟩
        index := g.index.insert value g.nodes.size } := by
  simp [addVertex, h]

/-- The graph with an edge put in at both of its ends.  It is the part of
`addEdge` that is left when the ends are vertices and the edge is new. -/
def joined (g : Digraph α) (source target : Nat) : Digraph α :=
  let g := g.update source fun node => { node with successors := node.successors ++ [target] }
  let g := g.update target fun node => { node with predecessors := node.predecessors ++ [source] }
  { g with edgeCount := g.edgeCount + 1 }

theorem addEdge_eq (g : Digraph α) (source target : α) :
    g.addEdge source target =
      let s := (g.addVertex source).2
      let t := ((g.addVertex source).1.addVertex target).2
      let g := ((g.addVertex source).1.addVertex target).1
      if g.linked s t then (g, false) else (g.joined s t, true) := rfl

/-! ## Calls -/

/-- A call that makes a graph grow.  A graph is then given by a list of calls,
and what is known of the graph can be stated in terms of that list alone. -/
inductive Call (α : Type) where
  | vertex (value : α)
  | edge (source target : α)

namespace Call

/-- The values that a call mentions, in order. -/
def values : Call α → List α
  | .vertex value => [value]
  | .edge source target => [source, target]

/-- The pair that a call joins, if it joins any. -/
def pair? : Call α → Option (α × α)
  | .vertex _ => none
  | .edge source target => some (source, target)

end Call

/-- The graph after one more call. -/
def apply (g : Digraph α) : Call α → Digraph α
  | .vertex value => (g.addVertex value).1
  | .edge source target => (g.addEdge source target).1

/-- The graph after a sequence of calls on the empty graph. -/
def build (calls : List (Call α)) : Digraph α := calls.foldl apply empty

/-- The values that calls mention, in order and with repeats. -/
def mentions (calls : List (Call α)) : List α := calls.flatMap Call.values

/-- The pairs that calls join, in order and with repeats. -/
def pairs (calls : List (Call α)) : List (α × α) := calls.filterMap Call.pair?

/-! ## Lists that grow by what is new -/

/-- The list with a value added at the end, unless it is there already.
Vertices and edges both grow in this way, so one set of lemmas serves both. -/
def addNew {β : Type} [DecidableEq β] (xs : List β) (x : β) : List β :=
  if x ∈ xs then xs else xs ++ [x]

section AddNew

variable {β : Type} [DecidableEq β]

theorem addNew_of_mem {xs : List β} {x : β} (h : x ∈ xs) : addNew xs x = xs := if_pos h

theorem addNew_of_not_mem {xs : List β} {x : β} (h : x ∉ xs) : addNew xs x = xs ++ [x] := if_neg h

theorem mem_addNew {xs : List β} {x y : β} : y ∈ addNew xs x ↔ y ∈ xs ∨ y = x := by
  by_cases h : x ∈ xs
  · rw [addNew_of_mem h]
    exact ⟨Or.inl, fun hy => hy.elim id fun heq => heq ▸ h⟩
  · rw [addNew_of_not_mem h, List.mem_append, List.mem_singleton]

/-- One more value without repeats.  It makes "each once, in the order of first
mention" an invariant: the list without repeats grows by `addNew` as the list
with repeats grows by one. -/
theorem eraseDups_concat [BEq β] [LawfulBEq β] (xs : List β) (x : β) :
    (xs ++ [x]).eraseDups = addNew xs.eraseDups x := by
  rw [List.eraseDups_append]
  by_cases h : x ∈ xs
  · rw [addNew_of_mem (List.mem_eraseDups.mpr h)]
    simp [List.removeAll, h]
  · rw [addNew_of_not_mem fun hmem => h (List.mem_eraseDups.mp hmem)]
    simp [List.removeAll, h, List.eraseDups_cons]

/-- What was in a list keeps its place.  So positions stored in nodes stay right
when vertices are added. -/
theorem idxOf_addNew {xs : List β} {x : β} (h : x ∈ xs) (y : β) :
    (addNew xs y).idxOf x = xs.idxOf x := by
  by_cases hy : y ∈ xs
  · rw [addNew_of_mem hy]
  · rw [addNew_of_not_mem hy, List.idxOf_append_of_mem h]

omit [DecidableEq β] in
theorem getElem?_concat_eq_some_iff (xs : List β) (x y : β) (i : Nat) :
    (xs ++ [x])[i]? = some y ↔ xs[i]? = some y ∨ (i = xs.length ∧ x = y) := by
  grind

end AddNew

/-! ## Graphs by their vertices and edges -/

/-- The targets of the edges from a vertex. -/
def targets (es : List (α × α)) (value : α) : List α :=
  (es.filter fun e => e.1 = value).map Prod.snd

/-- The sources of the edges to a vertex. -/
def sources (es : List (α × α)) (value : α) : List α :=
  (es.filter fun e => e.2 = value).map Prod.fst

/-- The node of a vertex in the graph with the vertices `vs` and the edges `es`.
Both ends of an edge are computed from one list of edges, so they agree by
definition. -/
def nodeIn (vs : List α) (es : List (α × α)) (value : α) : Node α :=
  ⟨value, (targets es value).map (vs.idxOf ·), (sources es value).map (vs.idxOf ·)⟩

/-- The graph has the vertices `vs` and the edges `es`, in this order.

This is a complete description: arena, index and count are all given by the two
lists, so two graphs with the same lists differ at most in how the index is
stored.  The first three fields are about the lists and are what makes positions
stand for vertices. -/
structure Represents (g : Digraph α) (vs : List α) (es : List (α × α)) : Prop where
  nodup_vertices : vs.Nodup
  nodup_edges : es.Nodup
  /-- Edges join vertices. -/
  ends : ∀ e ∈ es, e.1 ∈ vs ∧ e.2 ∈ vs
  /-- The arena, node by node. -/
  nodes : g.nodes.toList = vs.map (nodeIn vs es)
  /-- The index finds each vertex at its place, and nothing else. -/
  index : ∀ value id, g.idOf? value = some id ↔ vs[id]? = some value
  edgeCount : g.edgeCount = es.length

theorem mem_targets {es : List (α × α)} {a b : α} : b ∈ targets es a ↔ (a, b) ∈ es := by
  simp [targets]

theorem mem_sources {es : List (α × α)} {a b : α} : a ∈ sources es b ↔ (a, b) ∈ es := by
  simp [sources]

theorem targets_append (es : List (α × α)) (a b value : α) :
    targets (es ++ [(a, b)]) value = targets es value ++ if a = value then [b] else [] := by
  by_cases h : a = value <;> simp [targets, h]

theorem sources_append (es : List (α × α)) (a b value : α) :
    sources (es ++ [(a, b)]) value = sources es value ++ if b = value then [a] else [] := by
  by_cases h : b = value <;> simp [sources, h]

/-- Edges that share one end differ in the other.  One lemma for both ends of an
edge: successors are different because targets are, and predecessors because
sources are. -/
theorem nodup_map_filter {es : List (α × α)} (hes : es.Nodup) {near far : α × α → α}
    (hends : ∀ e e', near e = near e' → far e = far e' → e = e') (value : α) :
    ((es.filter fun e => near e = value).map far).Nodup := by
  refine (hes.filter _).map_on fun e he e' he' hfar => ?_
  simp only [List.mem_filter, decide_eq_true_eq] at he he'
  exact hends e e' (he.2.trans he'.2.symm) hfar

theorem represents_empty : (empty : Digraph α).Represents [] [] where
  nodup_vertices := List.nodup_nil
  nodup_edges := List.nodup_nil
  ends := by simp
  nodes := rfl
  index := by
    intro value id
    simp [idOf?, empty]
  edgeCount := rfl

namespace Represents

variable {g : Digraph α} {vs : List α} {es : List (α × α)}

/-- The targets of a vertex are different vertices. -/
theorem targets_spec (h : g.Represents vs es) (value : α) :
    (targets es value).Nodup ∧ ∀ b ∈ targets es value, b ∈ vs :=
  ⟨nodup_map_filter h.nodup_edges (fun _ _ hsource htarget => Prod.ext hsource htarget) value,
    fun _ hb => (h.ends _ (mem_targets.mp hb)).2⟩

/-- The sources of a vertex are different vertices. -/
theorem sources_spec (h : g.Represents vs es) (value : α) :
    (sources es value).Nodup ∧ ∀ a ∈ sources es value, a ∈ vs :=
  ⟨nodup_map_filter h.nodup_edges (fun _ _ htarget hsource => Prod.ext hsource htarget) value,
    fun _ ha => (h.ends _ (mem_sources.mp ha)).1⟩

theorem size_eq (h : g.Represents vs es) : g.nodes.size = vs.length := by
  rw [← Array.length_toList, h.nodes, List.length_map]

theorem getElem?_nodes (h : g.Represents vs es) (id : Nat) :
    g.nodes[id]? = vs[id]?.map (nodeIn vs es) := by
  rw [← Array.getElem?_toList, h.nodes, List.getElem?_map]

theorem value?_eq (h : g.Represents vs es) (id : Nat) : g.value? id = vs[id]? := by
  rw [value?, h.getElem?_nodes]
  cases vs[id]? <;> rfl

theorem idOf?_of_mem (h : g.Represents vs es) {value : α} (hvalue : value ∈ vs) :
    g.idOf? value = some (vs.idxOf value) :=
  (h.index _ _).mpr (List.getElem?_idxOf hvalue)

theorem idOf?_of_not_mem (h : g.Represents vs es) {value : α} (hvalue : value ∉ vs) :
    g.idOf? value = none := by
  cases hid : g.idOf? value with
  | none => rfl
  | some id => exact absurd (List.mem_of_getElem? ((h.index value id).mp hid)) hvalue

theorem nodeOf?_of_mem (h : g.Represents vs es) {value : α} (hvalue : value ∈ vs) :
    g.nodeOf? value = some (nodeIn vs es value) := by
  rw [nodeOf?, h.idOf?_of_mem hvalue]
  show g.nodes[vs.idxOf value]? = _
  rw [h.getElem?_nodes, List.getElem?_idxOf hvalue]
  rfl

/-- Positions of vertices read back as the vertices. -/
theorem filterMap_value?_idxOf (h : g.Represents vs es) {values : List α}
    (hvalues : ∀ v ∈ values, v ∈ vs) :
    (values.map (vs.idxOf ·)).filterMap g.value? = values := by
  rw [List.filterMap_map]
  have hread : ∀ v ∈ values, (g.value? ∘ (vs.idxOf ·)) v = some v := by
    intro v hv
    rw [Function.comp, h.value?_eq]
    exact List.getElem?_idxOf (hvalues v hv)
  rw [List.filterMap_congr hread]
  exact List.filterMap_some

/-! ### One more call -/

/-- A vertex that is there already is found, and nothing changes. -/
theorem addVertex_of_mem (h : g.Represents vs es) {value : α} (hvalue : value ∈ vs) :
    g.addVertex value = (g, vs.idxOf value) :=
  addVertex_of_some (h.idOf?_of_mem hvalue)

/-- A new vertex comes last, and has no edges. -/
theorem addVertex_of_not_mem (h : g.Represents vs es) {value : α} (hvalue : value ∉ vs) :
    (g.addVertex value).1.Represents (vs ++ [value]) es := by
  rw [addVertex_of_none (h.idOf?_of_not_mem hvalue)]
  refine ⟨?nodup_vertices, h.nodup_edges, ?ends, ?nodes, ?index, h.edgeCount⟩
  case nodup_vertices =>
    rw [← List.concat_eq_append]
    exact h.nodup_vertices.concat hvalue
  case ends =>
    intro e he
    obtain ⟨hsource, htarget⟩ := h.ends e he
    exact ⟨List.mem_append_left _ hsource, List.mem_append_left _ htarget⟩
  case nodes =>
    -- Old positions stay, and no edge can end in the new vertex.
    have hold : ∀ v ∈ vs, nodeIn (vs ++ [value]) es v = nodeIn vs es v := by
      intro v _
      have hplace : ∀ w ∈ vs, (vs ++ [value]).idxOf w = vs.idxOf w :=
        fun w hw => List.idxOf_append_of_mem hw
      rw [nodeIn, nodeIn,
        List.map_congr_left fun w hw => hplace w ((h.targets_spec v).2 w hw),
        List.map_congr_left fun w hw => hplace w ((h.sources_spec v).2 w hw)]
    have htargets : targets es value = [] :=
      List.eq_nil_iff_forall_not_mem.mpr fun b hb => hvalue (h.ends _ (mem_targets.mp hb)).1
    have hsources : sources es value = [] :=
      List.eq_nil_iff_forall_not_mem.mpr fun a ha => hvalue (h.ends _ (mem_sources.mp ha)).2
    rw [Array.toList_push, h.nodes, List.map_append, List.map_congr_left hold]
    simp [nodeIn, htargets, hsources]
  case index =>
    intro other id
    have hold : g.index.get? other = some id ↔ vs[id]? = some other := h.index other id
    show (g.index.insert value g.nodes.size).get? other = some id ↔ _
    rw [Dictionary.get?_insert, h.size_eq, getElem?_concat_eq_some_iff]
    by_cases hsame : value = other
    · subst hsame
      have hnone : vs[id]? ≠ some value := fun hget => hvalue (List.mem_of_getElem? hget)
      rw [if_pos rfl, Option.some.injEq]
      exact ⟨fun heq => Or.inr ⟨heq.symm, rfl⟩, fun hget => (hget.resolve_left hnone).1.symm⟩
    · rw [if_neg hsame, hold]
      exact ⟨Or.inl, fun hget => hget.resolve_right fun hlast => hsame hlast.2⟩

/-- A call for a vertex adds it unless it is there already.  Edges are not
affected, as positions that were given out do not change. -/
theorem addVertex (h : g.Represents vs es) (value : α) :
    (g.addVertex value).1.Represents (addNew vs value) es := by
  by_cases hvalue : value ∈ vs
  · rw [h.addVertex_of_mem hvalue, addNew_of_mem hvalue]
    exact h
  · rw [addNew_of_not_mem hvalue]
    exact h.addVertex_of_not_mem hvalue

/-- The position that a call for a vertex returns is that of the vertex. -/
theorem addVertex_snd (h : g.Represents vs es) (value : α) :
    (g.addVertex value).2 = (addNew vs value).idxOf value := by
  by_cases hvalue : value ∈ vs
  · rw [h.addVertex_of_mem hvalue, addNew_of_mem hvalue]
  · have hsnd : (g.addVertex value).2 = g.nodes.size := by
      simp [Digraph.addVertex, h.idOf?_of_not_mem hvalue]
    rw [hsnd, h.size_eq, addNew_of_not_mem hvalue, List.idxOf_append, if_neg hvalue]
    simp

/-- Two vertices are linked exactly if they are joined by an edge. -/
theorem linked_iff (h : g.Represents vs es) {a : α} (ha : a ∈ vs) (b : α) :
    g.linked (vs.idxOf a) (vs.idxOf b) = true ↔ (a, b) ∈ es := by
  rw [linked, h.getElem?_nodes, List.getElem?_idxOf ha]
  simp only [Option.map_some, nodeIn, List.contains_iff_mem, List.mem_map]
  rw [← mem_targets]
  constructor
  · rintro ⟨c, hc, heq⟩
    rw [List.idxOf_inj ((h.targets_spec a).2 c hc)] at heq
    rwa [← heq]
  · intro hmem
    exact ⟨b, hmem, rfl⟩

/-- An edge between vertices that were not joined. -/
theorem joined (h : g.Represents vs es) {a b : α} (ha : a ∈ vs) (hb : b ∈ vs) (hnew : (a, b) ∉ es) :
    (g.joined (vs.idxOf a) (vs.idxOf b)).Represents vs (es ++ [(a, b)]) := by
  refine ⟨h.nodup_vertices, ?nodup_edges, ?ends, ?nodes, ?index, ?edgeCount⟩
  case nodup_edges =>
    rw [← List.concat_eq_append]
    exact h.nodup_edges.concat hnew
  case ends =>
    intro e he
    rcases List.mem_append.mp he with he | he
    · exact h.ends e he
    · rw [List.mem_singleton.mp he]
      exact ⟨ha, hb⟩
  case nodes =>
    show ((g.update (vs.idxOf a) _).update (vs.idxOf b) _).nodes.toList = _
    rw [nodes_update, nodes_update, h.nodes]
    -- Only the two ends change; of a loop both changes meet in one node.
    apply List.ext_getElem?
    intro i
    rw [List.getElem?_modify, List.getElem?_modify, List.getElem?_map, List.getElem?_map]
    cases hi : vs[i]? with
    | none => rfl
    | some value =>
        have hplace : ∀ {v}, v ∈ vs → (vs.idxOf v = i ↔ v = value) := by
          intro v hv
          obtain ⟨hlt, hget⟩ := List.getElem?_eq_some_iff.mp hi
          rw [← hget, ← List.idxOf_inj hv, h.nodup_vertices.idxOf_getElem i hlt]
        simp only [Option.map_some, Option.map_eq_map, nodeIn, targets_append, sources_append,
          hplace ha, hplace hb]
        by_cases hva : a = value <;> by_cases hvb : b = value <;> simp [hva, hvb]
  case index =>
    intro value id
    show ((g.update (vs.idxOf a) _).update (vs.idxOf b) _).index.get? value = some id ↔ _
    rw [index_update, index_update]
    exact h.index value id
  case edgeCount =>
    show ((g.update (vs.idxOf a) _).update (vs.idxOf b) _).edgeCount + 1 = _
    rw [edgeCount_update, edgeCount_update, h.edgeCount, List.length_append, List.length_singleton]

/-- A call for an edge between vertices that are joined already changes nothing. -/
theorem addEdge_of_mem (h : g.Represents vs es) {a b : α} (hab : (a, b) ∈ es) :
    g.addEdge a b = (g, false) := by
  obtain ⟨ha, hb⟩ := h.ends _ hab
  rw [addEdge_eq, h.addVertex_of_mem ha, h.addVertex_of_mem hb]
  exact if_pos ((h.linked_iff ha b).mpr hab)

/-- A call for a new edge first adds what is missing of its ends, the source
before the target.  The order is seen in the vertices, and for a loop the second
of these additions finds the first. -/
theorem addEdge_of_not_mem (h : g.Represents vs es) {a b : α} (hab : (a, b) ∉ es) :
    (g.addEdge a b).1.Represents (addNew (addNew vs a) b) (es ++ [(a, b)]) ∧
      (g.addEdge a b).2 = true := by
  have hsource := h.addVertex a
  have htarget := hsource.addVertex b
  have ha : a ∈ addNew vs a := mem_addNew.mpr (Or.inr rfl)
  have ha' : a ∈ addNew (addNew vs a) b := mem_addNew.mpr (Or.inl ha)
  have hb : b ∈ addNew (addNew vs a) b := mem_addNew.mpr (Or.inr rfl)
  rw [addEdge_eq, h.addVertex_snd, hsource.addVertex_snd, ← idxOf_addNew ha b]
  simp only [if_neg (mt (htarget.linked_iff ha' b).mp hab)]
  exact ⟨htarget.joined ha' hb hab, trivial⟩

/-- A call for an edge adds its ends and the edge unless they are there already. -/
theorem addEdge (h : g.Represents vs es) (a b : α) :
    (g.addEdge a b).1.Represents (addNew (addNew vs a) b) (addNew es (a, b)) := by
  by_cases hab : (a, b) ∈ es
  · obtain ⟨ha, hb⟩ := h.ends _ hab
    rw [h.addEdge_of_mem hab, addNew_of_mem ha, addNew_of_mem hb, addNew_of_mem hab]
    exact h
  · rw [addNew_of_not_mem hab]
    exact (h.addEdge_of_not_mem hab).1

/-! ### Reading the graph -/

theorem vertices_eq (h : g.Represents vs es) : g.vertices = vs := by
  rw [vertices, h.nodes, List.map_map]
  exact List.map_id vs

theorem vertexCount_eq (h : g.Represents vs es) : g.vertexCount = vs.length := h.size_eq

theorem successors_eq (h : g.Represents vs es) (value : α) :
    g.successors value = targets es value := by
  rw [successors]
  by_cases hvalue : value ∈ vs
  · rw [h.nodeOf?_of_mem hvalue]
    exact h.filterMap_value?_idxOf (h.targets_spec value).2
  · rw [nodeOf?, h.idOf?_of_not_mem hvalue]
    exact (List.eq_nil_iff_forall_not_mem.mpr
      fun b hb => hvalue (h.ends _ (mem_targets.mp hb)).1).symm

theorem predecessors_eq (h : g.Represents vs es) (value : α) :
    g.predecessors value = sources es value := by
  rw [predecessors]
  by_cases hvalue : value ∈ vs
  · rw [h.nodeOf?_of_mem hvalue]
    exact h.filterMap_value?_idxOf (h.sources_spec value).2
  · rw [nodeOf?, h.idOf?_of_not_mem hvalue]
    exact (List.eq_nil_iff_forall_not_mem.mpr
      fun a ha => hvalue (h.ends _ (mem_sources.mp ha)).2).symm

theorem containsEdge_iff (h : g.Represents vs es) (a b : α) :
    g.containsEdge a b = true ↔ (a, b) ∈ es := by
  by_cases hends : a ∈ vs ∧ b ∈ vs
  · rw [containsEdge, h.idOf?_of_mem hends.1, h.idOf?_of_mem hends.2]
    exact h.linked_iff hends.1 b
  · have hnot : (a, b) ∉ es := fun hab => hends (h.ends _ hab)
    have hnone : g.idOf? a = none ∨ g.idOf? b = none := by
      by_cases ha : a ∈ vs
      · exact Or.inr (h.idOf?_of_not_mem fun hb => hends ⟨ha, hb⟩)
      · exact Or.inl (h.idOf?_of_not_mem ha)
    rw [containsEdge]
    rcases hnone with hnone | hnone <;> simp [hnone, hnot]

/-- The edges are grouped by source, in the order of the vertices. -/
theorem edges_eq (h : g.Represents vs es) :
    g.edges = vs.flatMap fun value => (targets es value).map (value, ·) := by
  rw [edges, h.nodes, List.flatMap_map]
  refine List.flatMap_congr fun value _ => ?_
  have hread := h.filterMap_value?_idxOf (h.targets_spec value).2
  show ((targets es value).map (vs.idxOf ·)).filterMap (fun id => (g.value? id).map (value, ·)) = _
  rw [← List.map_filterMap, hread]

theorem mem_edges_iff (h : g.Represents vs es) (e : α × α) : e ∈ g.edges ↔ e ∈ es := by
  obtain ⟨a, b⟩ := e
  simp only [h.edges_eq, List.mem_flatMap, List.mem_map, mem_targets, Prod.mk.injEq]
  constructor
  · rintro ⟨_, -, _, hab, rfl, rfl⟩
    exact hab
  · intro hab
    exact ⟨a, (h.ends _ hab).1, b, hab, rfl, rfl⟩

theorem edges_nodup (h : g.Represents vs es) : g.edges.Nodup := by
  rw [h.edges_eq, List.nodup_flatMap]
  refine ⟨fun value _ => (h.targets_spec value).1.map fun _ _ heq => (Prod.mk.inj heq).2, ?_⟩
  refine h.nodup_vertices.imp fun {a b} hne => ?_
  show List.Disjoint _ _
  rw [List.disjoint_left]
  intro e he he'
  obtain ⟨_, -, rfl⟩ := List.mem_map.mp he
  obtain ⟨_, -, heq⟩ := List.mem_map.mp he'
  exact hne (congrArg Prod.fst heq).symm

theorem edgeCount_eq (h : g.Represents vs es) : g.edgeCount = g.edges.length := by
  have hperm := (List.perm_ext_iff_of_nodup h.edges_nodup h.nodup_edges).mpr h.mem_edges_iff
  rw [h.edgeCount, hperm.length_eq]

/-- The positions stored in a node are different positions of vertices.  So no
access to the arena through a stored position fails. -/
theorem node_spec (h : g.Represents vs es) {node : Node α} (hnode : node ∈ g.nodes) :
    (∀ id ∈ node.successors ++ node.predecessors, id < g.vertexCount) ∧
      node.successors.Nodup ∧ node.predecessors.Nodup := by
  rw [← Array.mem_toList_iff, h.nodes] at hnode
  obtain ⟨value, -, rfl⟩ := List.mem_map.mp hnode
  obtain ⟨htargets, htargets'⟩ := h.targets_spec value
  obtain ⟨hsources, hsources'⟩ := h.sources_spec value
  have hplace : ∀ {values : List α}, (∀ v ∈ values, v ∈ vs) →
      ∀ id ∈ values.map (vs.idxOf ·), id < vs.length := by
    intro values hvalues id hid
    obtain ⟨v, hv, rfl⟩ := List.mem_map.mp hid
    exact List.idxOf_lt_length_iff.mpr (hvalues v hv)
  have hdistinct : ∀ {values : List α}, values.Nodup → (∀ v ∈ values, v ∈ vs) →
      (values.map (vs.idxOf ·)).Nodup := by
    intro values hnodup hvalues
    exact hnodup.map_on fun v hv w _ heq => (List.idxOf_inj (hvalues v hv)).mp heq
  rw [h.vertexCount_eq]
  refine ⟨fun id hid => ?_, hdistinct htargets htargets', hdistinct hsources hsources'⟩
  rcases List.mem_append.mp hid with hid | hid
  · exact hplace htargets' id hid
  · exact hplace hsources' id hid

end Represents

/-! ## Graphs by their calls -/

theorem build_concat (calls : List (Call α)) (call : Call α) :
    build (calls ++ [call]) = (build calls).apply call := by
  rw [build, List.foldl_append]
  rfl

/-- **A graph represents what its calls mention and join,** each value and each
pair once, in the order in which they came first.  The induction is on the calls
from the end, since a call is applied to the graph that the calls before it have
built. -/
theorem represents_build (calls : List (Call α)) :
    (build calls).Represents (mentions calls).eraseDups (pairs calls).eraseDups := by
  induction calls using List.reverseRecOn with
  | nil => exact represents_empty
  | append_singleton calls call ih =>
      rw [build_concat]
      cases call with
      | vertex value =>
          have hmentions : mentions (calls ++ [.vertex value]) = mentions calls ++ [value] := by
            simp [mentions, Call.values]
          have hpairs : pairs (calls ++ [.vertex value]) = pairs calls := by
            simp [pairs, Call.pair?]
          rw [hmentions, hpairs, eraseDups_concat]
          exact ih.addVertex value
      | edge source target =>
          have hmentions : mentions (calls ++ [.edge source target]) =
              (mentions calls ++ [source]) ++ [target] := by
            simp [mentions, Call.values]
          have hpairs : pairs (calls ++ [.edge source target]) =
              pairs calls ++ [(source, target)] := by
            simp [pairs, Call.pair?]
          rw [hmentions, hpairs, eraseDups_concat, eraseDups_concat, eraseDups_concat]
          exact ih.addEdge source target

/-- **What a graph records of the calls that built it.**  Its vertices are the values that were
mentioned, in the order of first mention, and the index finds each of them at its own node and finds
nothing else.  The positions stored in a node are positions of nodes, and none is stored twice.
Successors, predecessors and edges all tell which pairs were joined, the edges tell each of them
once, and their number is counted.  A further edge is new exactly if its pair was not joined before;
a vertex or an edge that is there already leaves the whole graph as it is. -/
theorem build_records_calls (calls : List (Call α)) :
    (build calls).vertices = (mentions calls).eraseDups ∧
      (∀ value id, (build calls).idOf? value = some id ↔ (build calls).value? id = some value) ∧
      (∀ node ∈ (build calls).nodes,
        (∀ id ∈ node.successors ++ node.predecessors, id < (build calls).vertexCount) ∧
          node.successors.Nodup ∧ node.predecessors.Nodup) ∧
      (∀ a b, (b ∈ (build calls).successors a ↔ (a, b) ∈ pairs calls) ∧
        (a ∈ (build calls).predecessors b ↔ (a, b) ∈ pairs calls) ∧
        ((build calls).containsEdge a b = true ↔ (a, b) ∈ pairs calls)) ∧
      ((build calls).edges.Nodup ∧ (∀ e, e ∈ (build calls).edges ↔ e ∈ pairs calls) ∧
        (build calls).edgeCount = (build calls).edges.length) ∧
      (∀ a b, ((build calls).addEdge a b).2 = true ↔ (a, b) ∉ pairs calls) ∧
      (∀ value ∈ mentions calls, ((build calls).addVertex value).1 = build calls) ∧
      ∀ e ∈ pairs calls, ((build calls).addEdge e.1 e.2).1 = build calls := by
  have h := represents_build calls
  have hpair : ∀ e, e ∈ (pairs calls).eraseDups ↔ e ∈ pairs calls := fun e => List.mem_eraseDups
  refine ⟨h.vertices_eq, fun value id => ?_, fun node => h.node_spec, fun a b => ⟨?_, ?_, ?_⟩,
    ⟨h.edges_nodup, fun e => ?_, h.edgeCount_eq⟩, fun a b => ?_, fun value hvalue => ?_,
    fun e he => ?_⟩
  · rw [h.index, h.value?_eq]
  · rw [h.successors_eq, mem_targets, hpair]
  · rw [h.predecessors_eq, mem_sources, hpair]
  · rw [h.containsEdge_iff, hpair]
  · rw [h.mem_edges_iff, hpair]
  · rw [← hpair]
    by_cases hab : (a, b) ∈ (pairs calls).eraseDups
    · simp [h.addEdge_of_mem hab, hab]
    · simp [(h.addEdge_of_not_mem hab).2, hab]
  · rw [h.addVertex_of_mem (List.mem_eraseDups.mpr hvalue)]
  · rw [h.addEdge_of_mem ((hpair e).mpr he)]

/-- A graph with a loop, a cycle and repeated calls. -/
theorem build_records_calls_of_cycle :
    let calls : List (Call Nat) :=
      [.edge 3 1, .edge 1 1, .vertex 3, .vertex 2, .edge 3 1, .edge 1 3]
    (build calls).vertices = [3, 1, 2] ∧ (build calls).idOf? 2 = some 2 ∧
      (2 : Nat) ∈ mentions calls ∧ ((build calls).addVertex 2).1 = build calls ∧
      (1, 1) ∈ pairs calls ∧ ((build calls).addEdge 1 1).1 = build calls ∧
      ((build calls).addEdge 2 2).2 = true := by
  intro calls
  obtain ⟨hvertices, hindex, -, -, -, hnew, hvertex, hedge⟩ := build_records_calls calls
  have hmention : (2 : Nat) ∈ mentions calls := by decide
  have hpair : (1, 1) ∈ pairs calls := by decide
  exact ⟨hvertices.trans (by decide), (hindex 2 2).mpr (by decide), hmention, hvertex 2 hmention,
    hpair, hedge (1, 1) hpair, (hnew 2 2).mpr (by decide)⟩

end Digraph

end StraightLine
