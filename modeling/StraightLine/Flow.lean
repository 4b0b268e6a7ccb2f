import StraightLine.Digraph
import StraightLine.Stmt

/-!
# Control flow

The flow graph of a program has its actions as vertices and an edge from each action to the one that
is executed right after it.  Blocks are not vertices: they only group.  A return closes the chain,
so the actions after it are vertices without an incoming edge.

## Main definitions

* `Flow`, `Stmt.flow` — the graph of a program, with the vertex where execution starts.
* `Flow.Cursor` — what is known of the execution between two statements.
* `Flow.reachability` — the vertices that can be executed, and the rest.
-/

namespace StraightLine

/-- A flow graph.  Its vertices are actions with their positions; blocks have
none. -/
structure Flow where
  graph : Digraph Occurrence
  start : Option Occurrence
  deriving Inhabited

namespace Flow

/-- Where the execution stands between two statements.  It is the state that
construction carries besides the graph: the next action is linked to the one it
names, if it names one. -/
inductive Cursor where
  /-- Nothing has been executed yet. -/
  | entry
  /-- The action that was executed last. -/
  | after (vertex : Occurrence)
  /-- A return has closed the chain. -/
  | terminated
  deriving DecidableEq

/-- The vertices of a graph by whether execution can reach them.  Both lists
together hold every vertex once. -/
structure Reachability where
  /-- In breadth-first order from the start. -/
  reachable : List Occurrence
  /-- In order of insertion. -/
  unreachable : List Occurrence
  deriving DecidableEq

/-- The flow graph of a program without actions. -/
def empty : Flow := ⟨.empty, none⟩

/-- The graph with a vertex added after the point that a cursor names.  Behind a
return it is added without an edge, and only the first action becomes the start. -/
def insert (flow : Flow) (vertex : Occurrence) (cursor : Cursor) : Flow :=
  let flow := { flow with graph := (flow.graph.addVertex vertex).1 }
  match cursor with
  | .entry => { flow with start := flow.start.or (some vertex) }
  | .after previous => { flow with graph := (flow.graph.addEdge previous vertex).1 }
  | .terminated => flow

/-- Where the execution stands after a vertex.  A cursor that a return has
closed stays closed, since nothing is executed behind it. -/
def Cursor.advance (cursor : Cursor) (vertex : Occurrence) : Cursor :=
  if vertex.action.isReturn then .terminated
  else
    match cursor with
    | .terminated => .terminated
    | .entry | .after _ => .after vertex

mutual

/-- Adds a statement to a graph, and moves the cursor past it. -/
def add (position : Nat) : Stmt → Cursor × Flow → Cursor × Flow
  | .action a, (cursor, flow) =>
    let vertex : Occurrence := ⟨position, a⟩
    (cursor.advance vertex, flow.insert vertex cursor)
  | .block body, state => addAll position body state

/-- Adds statements one after the other. -/
def addAll (position : Nat) : List Stmt → Cursor × Flow → Cursor × Flow
  | [], state => state
  | s :: rest, state => addAll (position + s.actionCount) rest (add position s state)

end

/-- The vertices in text order. -/
def vertices (flow : Flow) : List Occurrence := flow.graph.vertices

/-- The edges, grouped by source. -/
def edges (flow : Flow) : List (Occurrence × Occurrence) := flow.graph.edges

/-- The vertices from the start on and the rest.  Reachable is what the search
in the graph finds, and not what the construction believed to be live. -/
def reachability (flow : Flow) : Reachability :=
  let reachable :=
    match flow.start with
    | some start => flow.graph.reachableFrom start
    | none => []
  { reachable, unreachable := flow.vertices.filter (!reachable.contains ·) }

/-- The vertex of a statement whose first action has the given position; a block has none. -/
def vertexOf? (position : Nat) : Stmt → Option Occurrence
  | .action a => some ⟨position, a⟩
  | .block _ => none

/-- Whether a statement at a position is a vertex. -/
def contains (flow : Flow) (position : Nat) (s : Stmt) : Bool :=
  (vertexOf? position s).any flow.graph.containsVertex

/-- Whether there is an edge between two statements at their positions. -/
def hasEdge (flow : Flow) (source target : Nat × Stmt) : Bool :=
  match vertexOf? source.1 source.2, vertexOf? target.1 target.2 with
  | some s, some t => flow.graph.containsEdge s t
  | _, _ => false

namespace Reachability

/-- Whether a statement at a position can be executed. -/
def isReachable (r : Reachability) (position : Nat) (s : Stmt) : Bool :=
  (vertexOf? position s).any r.reachable.contains

/-- Whether a statement at a position cannot be executed. -/
def isUnreachable (r : Reachability) (position : Nat) (s : Stmt) : Bool :=
  (vertexOf? position s).any r.unreachable.contains

end Reachability

end Flow

/-- The flow graph of a program. -/
def Stmt.flow (program : Stmt) : Flow := (Flow.add 0 program (.entry, .empty)).2

end StraightLine
