import StraightLine.Proofs.Occurrences
import StraightLine.Proofs.PathGraph

/-!
# The shape of a flow graph

The flow graph of a program is a path: its vertices are the actions in text order, and the edges
join the actions up to the first return, each to the next one.

## Main definitions

* `Flow.visit` — the step from one action to the next during construction.
* `Flow.Traces` — what cursor and graph have to do with the actions visited so far.

## Main statements

* `Flow.Traces.visit` — the step preserves the invariant.
* `Stmt.traces_flow` — hence a finished graph is the path through the live actions.
* `Stmt.flow_shape` — everything that can be observed of the graph, in terms of that path.

## Design notes

* **Blocks disappear first.**  Construction threads its state through nested blocks, but what it
  does depends on the actions alone (`Flow.add_eq_foldl`), so the invariant is carried along a flat
  list.
* **The three cursors are the three cases of the invariant.**  Before the first action there is no
  vertex; after an action that is no return the path is complete and ends there; after a return the
  path no longer grows.
-/

namespace StraightLine

open Occurrence

namespace Flow

/-- The state of the construction after one more action.  Blocks have no step of
their own: entering and leaving one changes neither cursor nor graph. -/
def visit (state : Cursor × Flow) (vertex : Occurrence) : Cursor × Flow :=
  (state.1.advance vertex, state.2.insert vertex state.1)

/-- Adding a statement is visiting its actions one after the other.  After this
the nesting of the program plays no part in the construction. -/
theorem add_eq_foldl :
    (∀ (s : Stmt) (position : Nat) (state : Cursor × Flow),
        add position s state = (number position s.actions).foldl visit state) ∧
      (∀ (body : List Stmt) (position : Nat) (state : Cursor × Flow),
        addAll position body state =
          (number position (Stmt.actionsOf body)).foldl visit state) := by
  refine Stmt.induction ?action ?block ?nil ?cons
  case action =>
    intro a position state
    simp [add, visit]
  case block =>
    intro body ih position state
    rw [add, ih, Stmt.actions_block]
  case nil =>
    intro position state
    simp [addAll]
  case cons =>
    intro s rest ihs ihrest position state
    rw [addAll, ihrest, ihs, Stmt.actionsOf_cons, number_append, List.foldl_append,
      Stmt.length_actions.1]

/-- What a cursor says about the actions visited before it: none, or all of them
without a return and the last one known, or some return among them. -/
def Cursor.Behind (done : List Occurrence) : Cursor → Prop
  | .entry => done = []
  | .after vertex =>
    (∃ before, done = before ++ [vertex]) ∧ ∀ v ∈ done, v.action.isReturn = false
  | .terminated => ∃ v ∈ done, v.action.isReturn = true

/-- Cursor and graph after the actions in `done` have been visited.

The graph alone would not be inductive, since the next edge is drawn from where
the cursor stands.  With the cursor the next action is linked to the last vertex
of the path, or it is not linked at all because a return has ended the path. -/
structure Traces (done : List Occurrence) (state : Cursor × Flow) : Prop where
  /-- The edges so far join the actions up to the first return. -/
  path : state.2.graph.IsPath done (upToReturn done).length
  /-- Execution starts at the first action. -/
  start : state.2.start = done.head?
  /-- The cursor stands behind the last action. -/
  cursor : state.1.Behind done

theorem traces_nil : Traces [] (.entry, .empty) where
  path := Digraph.isPath_empty
  start := rfl
  cursor := rfl

/-- An action that comes after no return is on the path, and the cursor moves
behind it, or to the end of the path if it is a return. -/
theorem Cursor.behind_advance {done : List Occurrence} {cursor : Cursor} {v : Occurrence}
    (hlive : ∀ w ∈ done, w.action.isReturn = false) (hcursor : cursor ≠ .terminated) :
    (cursor.advance v).Behind (done ++ [v]) := by
  cases hret : v.action.isReturn with
  | true =>
      simp only [advance, hret, if_true]
      exact ⟨v, by simp, hret⟩
  | false =>
      have hadvance : cursor.advance v = .after v := by
        cases cursor <;> simp_all [advance]
      rw [hadvance]
      refine ⟨⟨done, rfl⟩, fun w hw => ?_⟩
      rcases List.mem_append.mp hw with hw | hw
      · exact hlive w hw
      · rw [List.mem_singleton.mp hw]
        exact hret

/-- One more action.  It must be new, because an action that is a vertex already
would not be inserted again; in a program it always is, by its position. -/
theorem Traces.visit {done : List Occurrence} {state : Cursor × Flow} (h : Traces done state)
    {v : Occurrence} (hv : v ∉ done) : Traces (done ++ [v]) (visit state v) := by
  obtain ⟨cursor, flow⟩ := state
  obtain ⟨path, start, behind⟩ := h
  cases cursor with
  | entry =>
      cases behind
      refine ⟨?_, ?_, ?_⟩
      · -- The first action is a path by itself, whether or not it is a return.
        rw [List.nil_append, upToReturn_singleton]
        exact (path.addVertex hv).one (by simp)
      · show flow.start.or (some v) = some v
        rw [show flow.start = none from start]
        rfl
      · show (Cursor.entry.advance v).Behind _
        exact Cursor.behind_advance (by simp) (by simp)
  | after previous =>
      obtain ⟨⟨before, rfl⟩, hlive⟩ := behind
      refine ⟨?_, ?_, ?_⟩
      · -- The path covers all of `done`; the new vertex is added behind it and then joined to it.
        have hpath := path.addVertex hv
        rw [upToReturn_of_forall hlive, List.length_append, List.append_assoc] at hpath
        have hlong := hpath.addEdge
        have hlength : (upToReturn (before ++ [previous] ++ [v])).length = before.length + 2 := by
          rw [upToReturn_append_of_forall hlive]
          unfold upToReturn
          split <;> simp
        rw [hlength, List.append_assoc]
        exact hlong
      · show flow.start = _
        rw [show flow.start = (before ++ [previous]).head? from start]
        cases before <;> rfl
      · show ((Cursor.after previous).advance v).Behind _
        exact Cursor.behind_advance hlive (by simp)
  | terminated =>
      obtain ⟨r, hr, hret⟩ := behind
      refine ⟨?_, ?_, ?_⟩
      · -- Behind a return the new vertex stays without edges.
        rw [upToReturn_append_of_exists ⟨r, hr, hret⟩]
        exact path.addVertex hv
      · show flow.start = _
        rw [show flow.start = done.head? from start]
        cases done with
        | nil => cases hr
        | cons w rest => rfl
      · have hadvance : Cursor.terminated.advance v = .terminated := by
          simp [Cursor.advance]
        show (Cursor.terminated.advance v).Behind _
        rw [hadvance]
        exact ⟨r, List.mem_append_left _ hr, hret⟩

/-- Any number of further actions. -/
theorem Traces.foldl_visit (vs : List Occurrence) :
    ∀ {done : List Occurrence} {state : Cursor × Flow}, Traces done state → (done ++ vs).Nodup →
      Traces (done ++ vs) (vs.foldl Flow.visit state) := by
  induction vs with
  | nil => intro done state h _; simpa using h
  | cons v rest ih =>
      intro done state h hnodup
      -- Actions at different positions are different, so none of them is a vertex already.
      have hv : v ∉ done := by
        intro hmem
        exact (List.nodup_append.mp hnodup).2.2 v hmem v List.mem_cons_self rfl
      rw [List.append_cons] at hnodup ⊢
      exact ih (h.visit hv) hnodup

end Flow

namespace Stmt

open StraightLine.Flow

/-- The flow graph of a program, by the path through its live actions.  All
observations of the graph below are read off `Digraph.IsPath`, and the
construction is not looked at again. -/
theorem traces_flow (program : Stmt) :
    program.flow.graph.IsPath program.occurrences program.live.length ∧
      program.flow.start = program.occurrences.head? := by
  have htraces := traces_nil.foldl_visit program.occurrences (by simpa using nodup_occurrences _)
  rw [flow, add_eq_foldl.1]
  exact ⟨htraces.path, htraces.start⟩

theorem isPath_flow (program : Stmt) :
    program.flow.graph.IsPath program.occurrences program.live.length :=
  program.traces_flow.1

theorem start_flow (program : Stmt) : program.flow.start = program.occurrences.head? :=
  program.traces_flow.2

/-- The live actions are the first ones. -/
theorem take_live (program : Stmt) :
    program.occurrences.take program.live.length = program.live :=
  (List.prefix_iff_eq_take.mp (upToReturn_isPrefix program.occurrences)).symm

theorem vertices_flow (program : Stmt) : program.flow.vertices = program.occurrences :=
  program.isPath_flow.vertices_eq

theorem edges_flow (program : Stmt) :
    program.flow.edges = program.live.zip program.live.tail := by
  rw [edges, program.isPath_flow.edges_eq, take_live]

/-- What can be reached from the start is what comes up to the first return. -/
theorem reachable_flow (program : Stmt) :
    program.flow.reachability.reachable = program.live := by
  rw [reachability, start_flow]
  cases hoccurrences : program.occurrences with
  | nil => simp [live, hoccurrences]
  | cons v rest =>
      have hfirst : program.occurrences[0]? = some v := by rw [hoccurrences]; rfl
      have hpos : 0 < program.live.length := by
        rw [live, hoccurrences, upToReturn]
        split <;> simp
      show program.flow.graph.reachableFrom v = program.live
      rw [program.isPath_flow.reachableFrom_eq hpos hfirst, take_live]

/-- The other actions are those that come later. -/
theorem unreachable_flow (program : Stmt) :
    program.flow.reachability.unreachable = program.occurrences.drop program.live.length := by
  have hsplit := program.live_append_drop
  have hnodup : (program.live ++ program.occurrences.drop program.live.length).Nodup := by
    rw [hsplit]
    exact nodup_occurrences program
  have hdisjoint := (List.nodup_append.mp hnodup).2.2
  show program.flow.vertices.filter (!program.flow.reachability.reachable.contains ·) = _
  have hfilter : (program.live ++ program.occurrences.drop program.live.length).filter
      (!program.live.contains ·) = program.occurrences.drop program.live.length := by
    rw [List.filter_append, List.filter_eq_nil_iff.mpr, List.filter_eq_self.mpr, List.nil_append]
    · intro v hv
      simpa using fun hlive => hdisjoint v hlive v hv rfl
    · intro v hv
      simpa using hv
  rw [vertices_flow, reachable_flow]
  rw [hsplit] at hfilter
  exact hfilter

/-- An action is a vertex, and it is either reachable or not: the two sides of
the partition are asked independently, and their answers always differ. -/
theorem flow_of_action {program : Stmt} {position : Nat} {a : Action}
    (h : (position, Stmt.action a) ∈ program.preorder) :
    program.flow.contains position (.action a) = true ∧
      program.flow.reachability.isReachable position (.action a) =
        !program.flow.reachability.isUnreachable position (.action a) := by
  have hmem := mem_occurrences_of_mem_preorder h
  refine ⟨(program.isPath_flow.containsVertex_iff _).mpr hmem, ?_⟩
  have hsplit := program.live_append_drop
  have hnodup := nodup_occurrences program
  rw [← hsplit, List.nodup_append] at hnodup
  rw [← hsplit, List.mem_append] at hmem
  show program.flow.reachability.reachable.contains _ =
    !program.flow.reachability.unreachable.contains _
  rw [reachable_flow, unreachable_flow, Bool.eq_iff_iff, List.contains_iff_mem,
    Bool.not_eq_true', Bool.eq_false_iff, ne_eq, List.contains_iff_mem]
  constructor
  · intro hlive hdead
    exact hnodup.2.2 _ hlive _ hdead rfl
  · intro hdead
    exact hmem.resolve_right hdead

/-- The edges between statements are those between neighbours on the path. -/
theorem hasEdge_flow (program : Stmt) (source target : Nat × Stmt) :
    program.flow.hasEdge source target = true ↔
      ∃ i v w, vertexOf? source.1 source.2 = some v ∧ vertexOf? target.1 target.2 = some w ∧
        program.live[i]? = some v ∧ program.live[i + 1]? = some w := by
  rw [hasEdge]
  split
  · rename_i v w hv hw
    rw [program.isPath_flow.containsEdge_iff, take_live, hv, hw]
    constructor
    · rintro ⟨i, hi⟩
      exact ⟨i, v, w, rfl, rfl, hi⟩
    · rintro ⟨i, v', w', hv', hw', hi⟩
      cases hv'
      cases hw'
      exact ⟨i, hi⟩
  · rename_i hnone
    simp only [Bool.false_eq_true, false_iff]
    rintro ⟨i, v, w, hv, hw, -⟩
    exact hnone v w hv hw

/-- **The shape of a flow graph.**  Its vertices are the actions of the program in text order, it
starts at the first of them, and its edges join the actions up to the first return, each to the
next.  What is reachable is that path, in order; the rest is unreachable, in order.  Hence an action
is a vertex and on exactly one of the two sides, a block is on neither, and two statements are
joined exactly if they are neighbours on the path. -/
theorem flow_shape (program : Stmt) :
    program.preorder.filterMap (fun p => vertexOf? p.1 p.2) = program.occurrences ∧
    (program.flow.vertices = program.occurrences ∧
      program.flow.graph.vertexCount = program.actionCount ∧
      program.flow.start = program.occurrences.head?) ∧
    (program.flow.edges = program.live.zip program.live.tail ∧
      program.flow.graph.edgeCount = program.live.length - 1) ∧
    (program.flow.reachability.reachable = program.live ∧
      program.flow.reachability.unreachable =
        program.occurrences.drop program.live.length) ∧
    (∀ position a, (position, Stmt.action a) ∈ program.preorder →
      program.flow.contains position (.action a) = true ∧
        program.flow.reachability.isReachable position (.action a) =
          !program.flow.reachability.isUnreachable position (.action a)) ∧
    (∀ position body, (position, Stmt.block body) ∈ program.preorder →
      program.flow.contains position (.block body) = false ∧
        program.flow.reachability.isReachable position (.block body) = false ∧
        program.flow.reachability.isUnreachable position (.block body) = false) ∧
    (∀ source ∈ program.preorder, ∀ target ∈ program.preorder,
      (program.flow.hasEdge source target = true ↔
        ∃ i v w, vertexOf? source.1 source.2 = some v ∧ vertexOf? target.1 target.2 = some w ∧
          program.live[i]? = some v ∧ program.live[i + 1]? = some w)) := by
  refine ⟨program.filterMap_preorder, ⟨program.vertices_flow, ?_, program.start_flow⟩,
    ⟨program.edges_flow, program.isPath_flow.edgeCount⟩,
    ⟨program.reachable_flow, program.unreachable_flow⟩,
    fun _ _ => flow_of_action, fun _ _ _ => ⟨rfl, rfl, rfl⟩,
    fun source _ target _ => program.hasEdge_flow source target⟩
  rw [program.isPath_flow.vertexCount_eq, length_occurrences]

/-- A program with a dead tail: the block between the two returns has no vertex. -/
theorem flow_shape_of_dead_tail :
    let program : Stmt := .block [.ret (.literal (.int 1)), .block [.ret (.variable "x")]]
    let first : Nat × Stmt := (0, .ret (.literal (.int 1)))
    let block : Nat × Stmt := (1, .block [.ret (.variable "x")])
    let last : Nat × Stmt := (1, .ret (.variable "x"))
    (first ∈ program.preorder ∧ block ∈ program.preorder ∧ last ∈ program.preorder) ∧
      program.flow.contains last.1 last.2 = true ∧
      program.flow.contains block.1 block.2 = false ∧
      program.flow.hasEdge first last = false := by
  intro program first block last
  have hpreorder : program.preorder = [(0, program), first, block, last] := by
    simp [program, first, block, last, preorder, preorderAt, preorderAt.preorderOfAt]
  have hfirst : first ∈ program.preorder := by simp [hpreorder]
  have hblock : block ∈ program.preorder := by simp [hpreorder]
  have hlast : last ∈ program.preorder := by simp [hpreorder]
  obtain ⟨-, -, -, -, haction, hnone, hedge⟩ := flow_shape program
  refine ⟨⟨hfirst, hblock, hlast⟩, (haction _ _ hlast).1, (hnone _ _ hblock).1, ?_⟩
  rw [Bool.eq_false_iff, ne_eq, hedge first hfirst last hlast]
  rintro ⟨i, v, w, -, -, -, hw⟩
  have hlive : program.live = [⟨0, .ret (.literal (.int 1))⟩] := by
    simp [program, live, occurrences, upToReturn, Action.isReturn]
  rw [hlive] at hw
  cases hw

end Stmt

end StraightLine
