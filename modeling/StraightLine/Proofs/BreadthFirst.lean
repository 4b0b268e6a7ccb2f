import StraightLine.Proofs.PathGraph

/-!
# The loop of breadth-first search

The search keeps the vertices that it has settled and a queue of those that it has met, and one turn
moves the first of the queue over and lets its successors join, unless they were met before.  Read
one behind the other, settled vertices and queue are a single list that only grows at its end, by
the targets of the vertices in it, in turn.

## Main definitions

* `Digraph.Grounded` — every vertex of a list but the start has an edge from one before it.
* `Digraph.Explored` — what holds between the settled vertices and the queue.

## Main statements

* `Digraph.Explored.turn` — one turn keeps it.
* `Digraph.Represents.search_eq` — hence the search comes to an end with an empty queue, and any
  further turns change nothing.
* `Digraph.Represents.reachableFrom_spec` — the same for the search from a vertex.

## Design notes

* **The loop is followed on values.**  It runs on positions, but a vertex has one position only, so
  the lists of positions are those of the vertices throughout.
* **The list is a function of its settled part:** the start and the targets of the settled vertices,
  without repeats.  At the end everything is settled, so the answer is the solution of an equation,
  and what is to be known of its order is read off there.
-/

namespace StraightLine

namespace Digraph

variable {α : Type} [DecidableEq α]

/-! ## Lists that grow by what is new -/

section Growth

variable {β : Type} [DecidableEq β]

/-- The queue after a value was met, if `front` was taken from it before.  It is
the test of the loop: neither settled nor waiting. -/
def meet (front queue : List β) (x : β) : List β :=
  if x ∈ front ++ queue then queue else queue ++ [x]

/-- What was taken from the queue and the queue are one list, which grows by
what is new.  Seen so, a turn of the loop does not change the list where the
first of the queue is taken over, and only adds to its end. -/
theorem append_foldl_meet (front queue ts : List β) :
    front ++ ts.foldl (meet front) queue = ts.foldl addNew (front ++ queue) := by
  induction ts generalizing queue with
  | nil => rfl
  | cons t ts ih =>
      rw [List.foldl_cons, List.foldl_cons, ih]
      congr 1
      by_cases ht : t ∈ front ++ queue
      · rw [meet, if_pos ht, addNew_of_mem ht]
      · rw [meet, if_neg ht, addNew_of_not_mem ht, List.append_assoc]

theorem foldl_addNew_eraseDups [BEq β] [LawfulBEq β] (xs ts : List β) :
    ts.foldl addNew xs.eraseDups = (xs ++ ts).eraseDups := by
  induction ts generalizing xs with
  | nil => rw [List.foldl_nil, List.append_nil]
  | cons t ts ih => rw [List.foldl_cons, ← eraseDups_concat, ih, List.append_assoc,
      List.singleton_append]

theorem nodup_addNew {xs : List β} (h : xs.Nodup) (x : β) : (addNew xs x).Nodup := by
  by_cases hx : x ∈ xs
  · rwa [addNew_of_mem hx]
  · rw [addNew_of_not_mem hx, ← List.concat_eq_append]
    exact h.concat hx

theorem nodup_eraseDups [BEq β] [LawfulBEq β] (xs : List β) : xs.eraseDups.Nodup := by
  induction xs using List.reverseRecOn with
  | nil => exact List.nodup_nil
  | append_singleton xs x ih =>
      rw [eraseDups_concat]
      exact nodup_addNew ih x

end Growth

/-! ## The invariant -/

/-- Every vertex of a list other than the start has an edge from one that comes
before it.  By induction along the list each of its members can be reached, and
this is all that the search has to establish for that direction. -/
def Grounded (es : List (α × α)) (start : α) (met : List α) : Prop :=
  ∀ front v back, met = front ++ v :: back → v = start ∨ ∃ u ∈ front, (u, v) ∈ es

/-- The state of a search: the vertices met are the start and the targets of the
settled vertices, each where it was met first, and every one of them was met by
way of an earlier one.

The equation in `met` determines settled vertices and queue together, order
included, from the settled part alone.  With an empty queue it says that the
answer is closed under edges, and in which order it comes. -/
structure Explored (es : List (α × α)) (start : α) (settled queue : List α) : Prop where
  met : settled ++ queue = (start :: settled.flatMap (targets es)).eraseDups
  grounded : Grounded es start (settled ++ queue)

omit [DecidableEq α] in
/-- One more vertex, with an edge from one that is there. -/
theorem Grounded.concat {es : List (α × α)} {start : α} {met : List α}
    (h : Grounded es start met) {u v : α} (hu : u ∈ met) (huv : (u, v) ∈ es) :
    Grounded es start (met ++ [v]) := by
  intro front w back hsplit
  rcases List.append_eq_append_iff.mp hsplit with ⟨more, hfront, hlast⟩ | ⟨more, hmet, hrest⟩
  · -- The vertex in question is the new one.
    cases more with
    | nil =>
        cases hlast
        rw [List.append_nil] at hfront
        exact Or.inr ⟨u, hfront ▸ hu, huv⟩
    | cons x more =>
        have hnil : more ++ w :: back = [] := (List.cons.inj hlast).2.symm
        exact absurd hnil (by simp)
  · cases more with
    | nil =>
        cases hrest
        rw [List.append_nil] at hmet
        exact Or.inr ⟨u, hmet ▸ hu, huv⟩
    | cons x more =>
        obtain ⟨rfl, -⟩ := List.cons.inj hrest
        exact h front w more hmet

theorem Grounded.foldl_addNew {es : List (α × α)} {start u : α} {met : List α}
    (h : Grounded es start met) (hu : u ∈ met) {ts : List α} (hts : ∀ v ∈ ts, (u, v) ∈ es) :
    Grounded es start (ts.foldl addNew met) := by
  induction ts generalizing met with
  | nil => exact h
  | cons t ts ih =>
      have hgrown : Grounded es start (addNew met t) := by
        by_cases ht : t ∈ met
        · rwa [addNew_of_mem ht]
        · rw [addNew_of_not_mem ht]
          exact h.concat hu (hts t List.mem_cons_self)
      exact ih hgrown (mem_addNew.mpr (Or.inl hu)) fun v hv => hts v (List.mem_cons_of_mem _ hv)

namespace Explored

variable {es : List (α × α)} {start v : α} {settled queue : List α}

/-- Before the first turn only the start was met. -/
theorem init (es : List (α × α)) (start : α) : Explored es start [] [start] where
  met := by
    rw [List.flatMap_nil, List.nil_append, List.eraseDups_cons]
    rfl
  grounded := by
    intro front v back hsplit
    cases front with
    | nil => exact Or.inl (List.cons.inj hsplit).1.symm
    | cons x front =>
        have hnil : front ++ v :: back = [] := (List.cons.inj hsplit).2.symm
        exact absurd hnil (by simp)

/-- One turn settles the first vertex of the queue and meets its targets.  The
flat list of targets grows by those of the vertex, and the list without repeats
by those that were not met before. -/
theorem turn (h : Explored es start settled (v :: queue)) :
    Explored es start (settled ++ [v])
      ((targets es v).foldl (meet (settled ++ [v])) queue) := by
  have hsplit : settled ++ [v] ++ queue = settled ++ v :: queue := by
    rw [List.append_assoc, List.singleton_append]
  constructor
  · rw [append_foldl_meet, hsplit, h.met, foldl_addNew_eraseDups, List.flatMap_append,
      List.flatMap_singleton, List.cons_append]
  · rw [append_foldl_meet, hsplit]
    apply h.grounded.foldl_addNew (u := v)
    · exact List.mem_append_right _ List.mem_cons_self
    · exact fun w hw => mem_targets.mp hw

theorem nodup (h : Explored es start settled queue) : (settled ++ queue).Nodup := by
  rw [h.met]
  exact nodup_eraseDups _

/-- Only the start and ends of edges are met. -/
theorem subset (h : Explored es start settled queue) {vs : List α} (hstart : start ∈ vs)
    (hes : ∀ e ∈ es, e.2 ∈ vs) : settled ++ queue ⊆ vs := by
  intro w hw
  rw [h.met, List.mem_eraseDups] at hw
  rcases List.mem_cons.mp hw with rfl | hw
  · exact hstart
  · obtain ⟨u, -, hu⟩ := List.mem_flatMap.mp hw
    exact hes _ (mem_targets.mp hu)

end Explored

/-! ## The search -/

namespace Represents

variable {g : Digraph α} {vs : List α} {es : List (α × α)}

/-- Positions join the queue as their vertices do.  The loop compares positions
and `meet` compares values; as all values concerned are vertices, one is found
exactly where the other is. -/
theorem foldl_positions (settled : List α) (v : α) {ts : List α} (hts : ∀ t ∈ ts, t ∈ vs)
    {queue : List α} (hqueue : ∀ w ∈ queue, w ∈ vs) :
    (ts.map (vs.idxOf ·)).foldl
        (fun queue succ =>
          if (settled.map (vs.idxOf ·)).contains succ || succ == vs.idxOf v || queue.contains succ
          then queue else queue ++ [succ])
        (queue.map (vs.idxOf ·)) =
      (ts.foldl (meet (settled ++ [v])) queue).map (vs.idxOf ·) := by
  -- Positions stand for values one to one, as all values in question are in the list.
  have hmem : ∀ {values : List α}, ∀ t ∈ vs,
      (values.map (vs.idxOf ·)).contains (vs.idxOf t) = true ↔ t ∈ values := by
    intro values t ht
    rw [List.contains_iff_mem, List.mem_map]
    constructor
    · rintro ⟨w, hw, heq⟩
      rwa [(List.idxOf_inj ht).mp heq.symm]
    · exact fun hmem => ⟨t, hmem, rfl⟩
  induction ts generalizing queue with
  | nil => rfl
  | cons t ts ih =>
      have ht := hts t List.mem_cons_self
      have hts' : ∀ t ∈ ts, t ∈ vs := fun w hw => hts w (List.mem_cons_of_mem _ hw)
      have hcond : ((settled.map (vs.idxOf ·)).contains (vs.idxOf t) ||
          vs.idxOf t == vs.idxOf v || (queue.map (vs.idxOf ·)).contains (vs.idxOf t)) = true ↔
          t ∈ settled ++ [v] ++ queue := by
        rw [Bool.or_eq_true, Bool.or_eq_true, hmem t ht, hmem t ht, beq_iff_eq,
          List.idxOf_inj ht]
        simp only [List.mem_append, List.mem_singleton]
      rw [List.map_cons, List.foldl_cons, List.foldl_cons, meet]
      by_cases hmet : t ∈ settled ++ [v] ++ queue
      · rw [if_pos (hcond.mpr hmet), if_pos hmet]
        exact ih hts' hqueue
      · have hqueue' : ∀ w ∈ queue ++ [t], w ∈ vs := by
          intro w hw
          rcases List.mem_append.mp hw with hw | hw
          · exact hqueue w hw
          · rwa [List.mem_singleton.mp hw]
        have hih := ih hts' hqueue'
        rw [List.map_append] at hih
        rw [if_neg (mt hcond.mp hmet), if_neg hmet]
        exact hih

/-- One turn of the loop, from lists of vertices to lists of vertices.  With
this the search is followed on values and positions are not mentioned again. -/
theorem search_succ (h : g.Represents vs es) {settled queue : List α} {v : α}
    (hvs : ∀ w ∈ settled ++ v :: queue, w ∈ vs) (steps : Nat) :
    g.search (steps + 1) (settled.map (vs.idxOf ·)) ((v :: queue).map (vs.idxOf ·)) =
      g.search steps ((settled ++ [v]).map (vs.idxOf ·))
        (((targets es v).foldl (meet (settled ++ [v])) queue).map (vs.idxOf ·)) := by
  have hv : v ∈ vs := hvs v (List.mem_append_right _ List.mem_cons_self)
  have hqueue : ∀ w ∈ queue, w ∈ vs :=
    fun w hw => hvs w (List.mem_append_right _ (List.mem_cons_of_mem _ hw))
  have hnode : g.nodes[vs.idxOf v]? = some (nodeIn vs es v) := by
    rw [h.getElem?_nodes, List.getElem?_idxOf hv, Option.map_some]
  rw [List.map_cons, search, hnode]
  show g.search steps _ (((targets es v).map (vs.idxOf ·)).foldl _ _) = _
  rw [foldl_positions settled v (h.targets_spec v).2 hqueue, List.map_append, List.map_singleton]

/-- **A search comes to an end.** From any state of a search a list is reached
that no turn changes any more, and for which there is one turn for each vertex
not settled yet.

The bound is on the number of vertices: settled ones are different vertices, so
when as many turns have been made as there are vertices the queue is empty.  The
number of steps that the search is given can then be any larger one. -/
theorem search_eq (h : g.Represents vs es) {start : α} (hstart : start ∈ vs)
    {settled queue : List α} (state : Explored es start settled queue) :
    ∃ order, Explored es start order [] ∧ ∀ steps, vs.length ≤ settled.length + steps →
      g.search steps (settled.map (vs.idxOf ·)) (queue.map (vs.idxOf ·)) =
        order.map (vs.idxOf ·) := by
  -- Every turn settles one vertex more, and all of them are different vertices of the graph.
  generalize hleft : vs.length - settled.length = left
  induction left generalizing settled queue with
  | zero =>
      have hsub := state.subset hstart fun e he => (h.ends e he).2
      have hlen := state.nodup.length_le_of_subset hsub
      cases queue with
      | nil => exact ⟨settled, state, fun steps _ => search_nil g steps _⟩
      | cons v queue =>
          simp only [List.length_append, List.length_cons] at hlen
          omega
  | succ left ih =>
      cases queue with
      | nil => exact ⟨settled, state, fun steps _ => search_nil g steps _⟩
      | cons v queue =>
          have hlen' : (settled ++ [v]).length = settled.length + 1 := by
            rw [List.length_append, List.length_singleton]
          obtain ⟨order, horder, hsearch⟩ := ih state.turn (by omega)
          refine ⟨order, horder, fun steps hsteps => ?_⟩
          obtain ⟨rest, rfl⟩ : ∃ rest, steps = rest + 1 := ⟨steps - 1, by omega⟩
          have hsub := state.subset hstart fun e he => (h.ends e he).2
          rw [h.search_succ (fun w hw => hsub hw) rest]
          exact hsearch rest (by omega)

/-- The search from a vertex lists what it lists after one turn for each vertex, and any further
turns change nothing. -/
theorem reachableFrom_spec (h : g.Represents vs es) {start : α} (hstart : start ∈ vs) :
    Explored es start (g.reachableFrom start) [] ∧
      ∀ steps, g.vertexCount ≤ steps →
        g.search steps [] [vs.idxOf start] = (g.reachableFrom start).map (vs.idxOf ·) := by
  obtain ⟨order, horder, hsearch⟩ := h.search_eq hstart (.init es start)
  have hsub := horder.subset hstart fun e he => (h.ends e he).2
  rw [List.append_nil] at hsub
  have hturns : ∀ steps, g.vertexCount ≤ steps →
      g.search steps [] [vs.idxOf start] = order.map (vs.idxOf ·) := by
    intro steps hsteps
    apply hsearch
    rwa [List.length_nil, Nat.zero_add, ← h.vertexCount_eq]
  have hreach : g.reachableFrom start = order := by
    rw [reachableFrom, h.idOf?_of_mem hstart]
    show (g.search g.vertexCount [] [vs.idxOf start]).filterMap g.value? = order
    rw [hturns _ (Nat.le_refl _), h.filterMap_value?_idxOf fun v hv => hsub hv]
  rw [hreach]
  exact ⟨horder, hturns⟩

/-- Nothing can be reached from what is not a vertex. -/
theorem reachableFrom_of_notMem (h : g.Represents vs es) {start : α} (hstart : start ∉ vs) :
    g.reachableFrom start = [] := by
  rw [reachableFrom, h.idOf?_of_not_mem hstart]

end Represents

end Digraph

end StraightLine
