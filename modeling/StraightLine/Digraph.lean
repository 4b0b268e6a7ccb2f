import StraightLine.Dictionary

/-!
# Directed graphs

Graphs whose vertices are values of any type with decidable equality.  Adding a vertex or an edge
that is already there changes nothing.  Vertices are listed in the order in which they were first
mentioned, the edges of a vertex in the order in which they were added.

## Main definitions

* `Digraph`, `Digraph.addVertex`, `Digraph.addEdge`.
* `Digraph.vertices`, `Digraph.edges`, `Digraph.successors`, `Digraph.predecessors`.
* `Digraph.reachableFrom` — breadth-first search.

## Design notes

* **Nodes are an arena, values are found through an index.**  Edges are kept as positions in the
  arena, at both ends.
* **The search needs no more steps than there are nodes,** since every step settles a node that was
  not settled before; the number of nodes is the bound on the recursion.
-/

namespace StraightLine

/-- A vertex with its edges, which name other nodes by position.  An edge is
stored at both of its ends. -/
structure Digraph.Node (α : Type) where
  value : α
  successors : List Nat
  predecessors : List Nat
  deriving Inhabited

/-- A directed graph.  Nodes are in order of insertion and never removed, so a
position stays what it is; the index leads from a value to its position, and the
number of edges is kept beside them. -/
structure Digraph (α : Type) where
  nodes : Array (Digraph.Node α)
  index : Dictionary α Nat
  edgeCount : Nat
  deriving Inhabited

namespace Digraph

variable {α : Type}

/-- The graph without vertices. -/
def empty : Digraph α := ⟨#[], .empty, 0⟩

/-- The number of vertices. -/
def vertexCount (g : Digraph α) : Nat := g.nodes.size

/-- The value at a position. -/
def value? (g : Digraph α) (id : Nat) : Option α := g.nodes[id]?.map (·.value)

/-- The vertices in order of insertion. -/
def vertices (g : Digraph α) : List α := g.nodes.toList.map (·.value)

/-- The edges, grouped by source in order of insertion. -/
def edges (g : Digraph α) : List (α × α) :=
  g.nodes.toList.flatMap fun node =>
    node.successors.filterMap fun id => (g.value? id).map (node.value, ·)

/-- The graph with one node changed. -/
def update (g : Digraph α) (id : Nat) (change : Node α → Node α) : Digraph α :=
  match g.nodes[id]? with
  | some node => { g with nodes := g.nodes.setIfInBounds id (change node) }
  | none => g

/-- The positions that can be reached from the positions in `queue` without
passing through those in `settled`, in breadth-first order after the settled
ones.  One step settles the first position of the queue, so as many steps as
there are nodes are enough. -/
def search (g : Digraph α) : Nat → List Nat → List Nat → List Nat
  | 0, settled, _ => settled
  | _ + 1, settled, [] => settled
  | steps + 1, settled, id :: queue =>
    let next := match g.nodes[id]? with
      | some node => node.successors
      | none => []
    let queue := next.foldl
      (fun queue succ =>
        if settled.contains succ || succ == id || queue.contains succ then queue
        else queue ++ [succ])
      queue
    search g steps (settled ++ [id]) queue

variable [DecidableEq α]

/-- The position of a value. -/
def idOf? (g : Digraph α) (value : α) : Option Nat := g.index.get? value

/-- Whether a value is a vertex. -/
def containsVertex (g : Digraph α) (value : α) : Bool := (g.idOf? value).isSome

/-- The graph with a vertex added, and the position of that vertex.  A value
that is a vertex already is found, and the graph stays as it is. -/
def addVertex (g : Digraph α) (value : α) : Digraph α × Nat :=
  match g.idOf? value with
  | some id => (g, id)
  | none =>
    ({ g with nodes := g.nodes.push ⟨value, [], []⟩, index := g.index.insert value g.nodes.size },
      g.nodes.size)

/-- Whether there is an edge between two positions. -/
def linked (g : Digraph α) (source target : Nat) : Bool :=
  match g.nodes[source]? with
  | some node => node.successors.contains target
  | none => false

/-- The graph with an edge added, and whether the edge is new.  Ends that are no
vertices are added first, the source before the target. -/
def addEdge (g : Digraph α) (source target : α) : Digraph α × Bool :=
  let (g, s) := g.addVertex source
  let (g, t) := g.addVertex target
  if g.linked s t then (g, false)
  else
    let g := g.update s fun node => { node with successors := node.successors ++ [t] }
    let g := g.update t fun node => { node with predecessors := node.predecessors ++ [s] }
    ({ g with edgeCount := g.edgeCount + 1 }, true)

/-- Whether there is an edge between two values. -/
def containsEdge (g : Digraph α) (source target : α) : Bool :=
  match g.idOf? source, g.idOf? target with
  | some s, some t => g.linked s t
  | _, _ => false

/-- The node of a value. -/
def nodeOf? (g : Digraph α) (value : α) : Option (Node α) :=
  (g.idOf? value).bind (g.nodes[·]?)

/-- The vertices to which there is an edge from a vertex, in the order in which the edges came. -/
def successors (g : Digraph α) (value : α) : List α :=
  match g.nodeOf? value with
  | some node => node.successors.filterMap g.value?
  | none => []

/-- The vertices from which there is an edge to a vertex, in the order in which the edges came. -/
def predecessors (g : Digraph α) (value : α) : List α :=
  match g.nodeOf? value with
  | some node => node.predecessors.filterMap g.value?
  | none => []

/-- The vertices that can be reached from a vertex, itself included, in breadth-first order. -/
def reachableFrom (g : Digraph α) (value : α) : List α :=
  match g.idOf? value with
  | some id => (g.search g.vertexCount [] [id]).filterMap g.value?
  | none => []

end Digraph

end StraightLine
