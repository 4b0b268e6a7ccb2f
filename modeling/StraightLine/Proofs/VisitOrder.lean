import Mathlib.Order.Lattice.Nat
import StraightLine.Proofs.BreadthFirst

/-!
# The order of breadth-first search

Breadth-first search lists the vertices that there is a path to, the nearer ones first, and among
those at the same distance goes by the vertex from which they were met and by the age of the edge.

## Main definitions

* `Digraph.Walk`, `Digraph.distance` — paths from a vertex, and the length of a shortest one.
* `Digraph.discoverer?` — the first vertex of a list with an edge to a given one.
* `Digraph.BreadthFirst` — what it means for a list to be in breadth-first order.

## Main statements

* `Digraph.Explored.breadthFirst` — a search that came to its end lists in breadth-first order.
* `Digraph.reachableFrom_build` — the search in a graph, by the calls that built it.

## Design notes

* **Order first, distances from it.**  The list of all vertices met is the start and the targets of
  its members, in turn and without repeats; so of two vertices the one comes first whose discoverer
  does, and for the same discoverer the one with the older edge.  That nearer vertices come first is
  an induction on the distance which uses no other property of the search.
-/

namespace StraightLine

namespace Digraph

/-! ## Positions of first occurrences -/

section FirstOccurrence

variable {β : Type}

/-- Taking out repeats does not change what comes first.  So the order of a list
without repeats can be read off the list with them, which is a plain `flatMap`. -/
theorem idxOf_eraseDups_lt_iff [BEq β] [LawfulBEq β] {xs : List β} {x y : β} (hx : x ∈ xs)
    (hy : y ∈ xs) : xs.eraseDups.idxOf x < xs.eraseDups.idxOf y ↔ xs.idxOf x < xs.idxOf y := by
  classical
  induction xs using List.reverseRecOn with
  | nil => cases hx
  | append_singleton xs z ih =>
      have hlast : ∀ {w : β}, w ∈ xs ++ [z] → w ∉ xs → w = z := by
        intro w hw hout
        rcases List.mem_append.mp hw with hw | hw
        · exact absurd hw hout
        · exact List.mem_singleton.mp hw
      -- Old values keep their places in both lists, and a new one comes behind all of them.
      have hplace : ∀ {w : β}, w ∈ xs →
          (addNew xs.eraseDups z).idxOf w = xs.eraseDups.idxOf w ∧
            xs.eraseDups.idxOf w < xs.eraseDups.length ∧
              (xs ++ [z]).idxOf w = xs.idxOf w ∧ xs.idxOf w < xs.length := by
        intro w hw
        have hw' := List.mem_eraseDups.mpr hw
        refine ⟨?_, List.idxOf_lt_length_iff.mpr hw', List.idxOf_append_of_mem hw,
          List.idxOf_lt_length_iff.mpr hw⟩
        by_cases hz : z ∈ xs.eraseDups
        · rw [addNew_of_mem hz]
        · rw [addNew_of_not_mem hz, List.idxOf_append_of_mem hw']
      have hend : ∀ {w : β}, w ∉ xs → xs.eraseDups.length ≤ (addNew xs.eraseDups z).idxOf w ∧
          xs.length ≤ (xs ++ [z]).idxOf w := by
        intro w hw
        have hw' : w ∉ xs.eraseDups := fun hmem => hw (List.mem_eraseDups.mp hmem)
        rw [List.idxOf_append_of_notMem hw]
        refine ⟨?_, Nat.le_add_right _ _⟩
        by_cases hz : z ∈ xs.eraseDups
        · rw [addNew_of_mem hz, List.idxOf_eq_length hw']
        · rw [addNew_of_not_mem hz, List.idxOf_append_of_notMem hw']
          exact Nat.le_add_right _ _
      rw [eraseDups_concat]
      by_cases hx' : x ∈ xs <;> by_cases hy' : y ∈ xs
      · obtain ⟨hxd, -, hxs, -⟩ := hplace hx'
        obtain ⟨hyd, -, hys, -⟩ := hplace hy'
        rw [hxd, hyd, hxs, hys]
        exact ih hx' hy'
      · have hxp := hplace hx'
        have hye := hend hy'
        exact iff_of_true (by omega) (by omega)
      · have hxe := hend hx'
        have hyp := hplace hy'
        exact iff_of_false (by omega) (by omega)
      · rw [hlast hx hx', hlast hy hy']
        exact iff_of_false (Nat.lt_irrefl _) (Nat.lt_irrefl _)

variable [DecidableEq β]

/-- In a list without repeats what stands in front of a value comes before it. -/
theorem idxOf_lt_of_mem_front {front back : List β} {x y : β} (h : (front ++ y :: back).Nodup)
    (hx : x ∈ front) : (front ++ y :: back).idxOf x < (front ++ y :: back).idxOf y := by
  have hy : y ∉ front := fun hmem =>
    (List.nodup_append.mp h).2.2 y hmem y List.mem_cons_self rfl
  rw [List.idxOf_append_of_mem hx, List.idxOf_append_of_notMem hy, List.idxOf_cons_self,
    Nat.add_zero]
  exact List.idxOf_lt_length_iff.mpr hx

/-- A search finds the first value with a property. -/
theorem idxOf_le_of_find? {p : β → Bool} {xs : List β} {x y : β} (hx : xs.find? p = some x)
    (hy : p y = true) : xs.idxOf x ≤ xs.idxOf y := by
  obtain ⟨hpx, front, back, rfl, hfront⟩ := List.find?_eq_some_iff_append.mp hx
  have hout : ∀ {z : β}, p z = true → z ∉ front := by
    intro z hz hmem
    have hfalse := hfront z hmem
    rw [hz] at hfalse
    cases hfalse
  rw [List.idxOf_append_of_notMem (hout hpx), List.idxOf_append_of_notMem (hout hy),
    List.idxOf_cons_self]
  exact Nat.le_add_right _ _

end FirstOccurrence

variable {α : Type}

/-! ## Paths and discoverers -/

/-- There is a directed path of `n` edges from the start to a vertex.  It speaks
of the list of edges only, so it is independent of how the search goes about
finding one. -/
inductive Walk (es : List (α × α)) (start : α) : Nat → α → Prop where
  | here : Walk es start 0 start
  | step {n : Nat} {u v : α} : Walk es start n u → (u, v) ∈ es → Walk es start (n + 1) v

/-- The length of a shortest path from the start to a vertex.  It is not
computed by anything: the search never counts, and that its order respects
distances is a theorem. -/
noncomputable def distance (es : List (α × α)) (start v : α) : Nat := sInf {n | Walk es start n v}

section Distance

variable {es : List (α × α)} {start u v : α} {n : Nat}

theorem Walk.distance_le (h : Walk es start n v) : distance es start v ≤ n := Nat.sInf_le h

/-- A shortest path is a path. -/
theorem Walk.shortest (h : Walk es start n v) : Walk es start (distance es start v) v :=
  Nat.sInf_mem (s := {n | Walk es start n v}) ⟨n, h⟩

theorem distance_start (es : List (α × α)) (start : α) : distance es start start = 0 :=
  Nat.le_zero.mp Walk.here.distance_le

/-- An edge leads away from the start by at most one. -/
theorem Walk.distance_le_succ (h : Walk es start n u) (huv : (u, v) ∈ es) :
    distance es start v ≤ distance es start u + 1 :=
  (h.shortest.step huv).distance_le

/-- A shortest path comes from a vertex that is nearer by one.  This is the step
of the induction on distances. -/
theorem Walk.exists_nearer (h : Walk es start n v) (hv : v ≠ start) :
    ∃ m u, Walk es start m u ∧ (u, v) ∈ es ∧ distance es start u + 1 = distance es start v := by
  have hshort := h.shortest
  generalize hd : distance es start v = d at hshort
  cases hshort with
  | here => exact absurd rfl hv
  | step hu huv =>
      refine ⟨_, _, hu, huv, Nat.le_antisymm ?_ ?_⟩
      · exact Nat.succ_le_succ hu.distance_le
      · rw [← hd]
        exact hu.distance_le_succ huv

end Distance

variable [DecidableEq α]

/-- The first vertex of a list that has an edge to a given one.  In the order of
a search it is the vertex in whose turn the given one was met. -/
def discoverer? (es : List (α × α)) (order : List α) (v : α) : Option α :=
  order.find? fun u => (u, v) ∈ es

/-- A list holds the vertices that there is a path to from the start, in
breadth-first order.

The fields before the last one are what is usually meant: nearer vertices come
first, each met from one that is nearer by one.  The last one settles ties as
well, by the discoverer and then by the age of the edge. -/
structure BreadthFirst (es : List (α × α)) (start : α) (order : List α) : Prop where
  /-- The start comes first. -/
  head?_eq : order.head? = some start
  /-- No vertex is repeated. -/
  nodup : order.Nodup
  /-- The list holds the vertices that there is a path to, and no others. -/
  mem_iff : ∀ v, v ∈ order ↔ ∃ n, Walk es start n v
  /-- Distances never decrease. -/
  distance_le : order.Pairwise fun v w => distance es start v ≤ distance es start w
  /-- The vertex that discovered another one comes before it, and is nearer by one. -/
  discovered : ∀ v ∈ order, v ≠ start → ∃ u, discoverer? es order v = some u ∧
    order.idxOf u < order.idxOf v ∧ distance es start u + 1 = distance es start v
  /-- Vertices are ordered by distance, those at the same distance by the place of the vertex that
  discovered them, and those with the same one by the age of its edge. -/
  before_iff : ∀ v ∈ order, ∀ w ∈ order, ∀ u u', v ≠ start → w ≠ start →
    discoverer? es order v = some u → discoverer? es order w = some u' →
    (order.idxOf v < order.idxOf w ↔
      distance es start v < distance es start w ∨
        distance es start v = distance es start w ∧
          (order.idxOf u < order.idxOf u' ∨ u = u' ∧ es.idxOf (u, v) < es.idxOf (u', w)))

/-! ## The order of a list of targets -/

/-- The targets of a vertex come in the order of its edges. -/
theorem idxOf_targets_lt_iff {es : List (α × α)} {u v w : α} :
    (targets es u).idxOf v < (targets es u).idxOf w ↔ es.idxOf (u, v) < es.idxOf (u, w) := by
  induction es with
  | nil => exact Iff.rfl
  | cons e es ih =>
      obtain ⟨a, b⟩ := e
      -- Only edges from `u` count in both lists, and the first of them comes before all others.
      by_cases ha : a = u
      · subst ha
        have htargets : targets ((a, b) :: es) a = b :: targets es a := by simp [targets]
        rw [htargets]
        by_cases hv : b = v
        · subst hv
          by_cases hw : b = w
          · subst hw
            simp
          · have hne : (a, b) ≠ (a, w) := fun heq => hw (Prod.mk.inj heq).2
            rw [List.idxOf_cons_self, List.idxOf_cons_self, List.idxOf_cons_ne _ hw,
              List.idxOf_cons_ne _ hne]
            exact iff_of_true (Nat.succ_pos _) (Nat.succ_pos _)
        · have hne : (a, b) ≠ (a, v) := fun heq => hv (Prod.mk.inj heq).2
          rw [List.idxOf_cons_ne _ hv, List.idxOf_cons_ne _ hne]
          by_cases hw : b = w
          · subst hw
            rw [List.idxOf_cons_self, List.idxOf_cons_self]
            exact iff_of_false (Nat.not_lt_zero _) (Nat.not_lt_zero _)
          · have hne' : (a, b) ≠ (a, w) := fun heq => hw (Prod.mk.inj heq).2
            rw [List.idxOf_cons_ne _ hw, List.idxOf_cons_ne _ hne', Nat.succ_lt_succ_iff,
              Nat.succ_lt_succ_iff]
            exact ih
      · have htargets : targets ((a, b) :: es) u = targets es u := by simp [targets, ha]
        have hne : ∀ x, (a, b) ≠ (u, x) := fun x heq => ha (Prod.mk.inj heq).1
        rw [htargets, List.idxOf_cons_ne _ (hne v), List.idxOf_cons_ne _ (hne w),
          Nat.succ_lt_succ_iff]
        exact ih

/-- In a list of targets those come first whose discoverer does, and those of
the same one in the order of its targets.  A value may stand at several places
of the list; its first one is in the part of its discoverer. -/
theorem idxOf_flatMap_lt_iff {es : List (α × α)} {order : List α} {u u' v w : α}
    (hv : discoverer? es order v = some u) (hw : discoverer? es order w = some u') :
    (order.flatMap (targets es)).idxOf v < (order.flatMap (targets es)).idxOf w ↔
      order.idxOf u < order.idxOf u' ∨
        u = u' ∧ (targets es u).idxOf v < (targets es u').idxOf w := by
  induction order with
  | nil => cases hv
  | cons a order ih =>
      -- A vertex is discovered by `a`, or else it is found among the targets of the others.
      have hcase : ∀ {x y : α}, discoverer? es (a :: order) x = some y →
          (x ∈ targets es a ∧ y = a) ∨
            (x ∉ targets es a ∧ discoverer? es order x = some y ∧ y ≠ a) := by
        intro x y hxy
        by_cases hx : (a, x) ∈ es
        · rw [discoverer?, List.find?_cons_of_pos (by simpa using hx)] at hxy
          exact Or.inl ⟨mem_targets.mpr hx, (Option.some_inj.mp hxy).symm⟩
        · rw [discoverer?, List.find?_cons_of_neg (by simpa using hx)] at hxy
          refine Or.inr ⟨mt mem_targets.mp hx, hxy, ?_⟩
          rintro rfl
          exact hx (by simpa using List.find?_some hxy)
      rw [List.flatMap_cons]
      rcases hcase hv with ⟨hva, rfl⟩ | ⟨hva, hv', hua⟩ <;>
        rcases hcase hw with ⟨hwa, rfl⟩ | ⟨hwa, hw', hua'⟩
      · rw [List.idxOf_append_of_mem hva, List.idxOf_append_of_mem hwa]
        simp
      · rw [List.idxOf_append_of_mem hva, List.idxOf_append_of_notMem hwa, List.idxOf_cons_self,
          List.idxOf_cons_ne _ hua'.symm]
        have hlt := List.idxOf_lt_length_iff.mpr hva
        exact iff_of_true (by omega) (Or.inl (Nat.succ_pos _))
      · rw [List.idxOf_append_of_notMem hva, List.idxOf_append_of_mem hwa, List.idxOf_cons_self]
        have hlt := List.idxOf_lt_length_iff.mpr hwa
        refine iff_of_false (by omega) ?_
        rintro (h | ⟨heq, -⟩)
        · exact Nat.not_lt_zero _ h
        · exact hua heq
      · rw [List.idxOf_append_of_notMem hva, List.idxOf_append_of_notMem hwa,
          List.idxOf_cons_ne _ hua.symm, List.idxOf_cons_ne _ hua'.symm, Nat.succ_lt_succ_iff,
          Nat.add_lt_add_iff_left]
        exact ih hv' hw'

/-! ## The end of a search -/

namespace Explored

variable {es : List (α × α)} {start : α} {order : List α}

/-- The vertices met are the start and the targets of all of them. -/
theorem order_eq (h : Explored es start order []) :
    order = (start :: order.flatMap (targets es)).eraseDups := by
  have hmet := h.met
  rwa [List.append_nil] at hmet

theorem nodup_order (h : Explored es start order []) : order.Nodup := by
  rw [h.order_eq]
  exact nodup_eraseDups _

theorem head?_order (h : Explored es start order []) : order.head? = some start := by
  rw [h.order_eq, List.eraseDups_cons]
  rfl

theorem mem_order (h : Explored es start order []) {v : α} :
    v ∈ order ↔ v = start ∨ ∃ u ∈ order, (u, v) ∈ es := by
  have hmem : v ∈ order ↔ v ∈ (start :: order.flatMap (targets es)).eraseDups := by
    rw [← h.order_eq]
  rw [hmem, List.mem_eraseDups, List.mem_cons, List.mem_flatMap]
  simp only [mem_targets]

/-- A vertex other than the start was discovered from one that comes before it. -/
theorem exists_discoverer (h : Explored es start order []) {v : α} (hv : v ∈ order)
    (hne : v ≠ start) : ∃ u ∈ order, discoverer? es order v = some u ∧ (u, v) ∈ es ∧
      order.idxOf u < order.idxOf v := by
  obtain ⟨front, back, rfl⟩ := List.append_of_mem hv
  have hgrounded := h.grounded front v back (List.append_nil _)
  obtain ⟨u₀, hu₀, hedge⟩ := hgrounded.resolve_left hne
  have hsome : (front.find? fun u => (u, v) ∈ es).isSome := by
    rw [List.find?_isSome]
    exact ⟨u₀, hu₀, by simpa using hedge⟩
  obtain ⟨u, hu⟩ := Option.isSome_iff_exists.mp hsome
  have hmem : u ∈ front := List.mem_of_find?_eq_some hu
  refine ⟨u, List.mem_append_left _ hmem, ?_, by simpa using List.find?_some hu,
    idxOf_lt_of_mem_front h.nodup_order hmem⟩
  rw [discoverer?, List.find?_append, hu]
  rfl

/-- The vertices met are those that there is a path to. -/
theorem mem_iff_walk (h : Explored es start order []) (v : α) :
    v ∈ order ↔ ∃ n, Walk es start n v := by
  constructor
  · intro hv
    -- The vertex from which `v` was met has a smaller place in the list.
    generalize hplace : order.idxOf v = place
    induction place using Nat.strongRecOn generalizing v with
    | ind place ih =>
        by_cases hstart : v = start
        · exact ⟨0, hstart ▸ .here⟩
        · obtain ⟨u, hu, -, hedge, hlt⟩ := h.exists_discoverer hv hstart
          obtain ⟨n, hwalk⟩ := ih _ (hplace ▸ hlt) u hu rfl
          exact ⟨n + 1, hwalk.step hedge⟩
  · rintro ⟨n, hwalk⟩
    induction hwalk with
    | here => exact h.mem_order.mpr (Or.inl rfl)
    | step _ hedge ih => exact h.mem_order.mpr (Or.inr ⟨_, ih, hedge⟩)

/-- Of two vertices the one comes first whose discoverer does, and for the same
discoverer the one with the older edge.  It is the order of the list of targets,
carried over by `idxOf_eraseDups_lt_iff`. -/
theorem idxOf_lt_iff (h : Explored es start order []) {u u' v w : α} (hvs : v ≠ start)
    (hws : w ≠ start) (hv : discoverer? es order v = some u)
    (hw : discoverer? es order w = some u') :
    order.idxOf v < order.idxOf w ↔
      order.idxOf u < order.idxOf u' ∨ u = u' ∧ es.idxOf (u, v) < es.idxOf (u', w) := by
  have hmem : ∀ {x y : α}, discoverer? es order x = some y → x ∈ order.flatMap (targets es) := by
    intro x y hxy
    have hedge : (y, x) ∈ es := by simpa using List.find?_some hxy
    exact List.mem_flatMap.mpr ⟨y, List.mem_of_find?_eq_some hxy, mem_targets.mpr hedge⟩
  have horder := idxOf_eraseDups_lt_iff (List.mem_cons_of_mem start (hmem hv))
    (List.mem_cons_of_mem start (hmem hw))
  rw [← h.order_eq, List.idxOf_cons_ne _ hvs.symm, List.idxOf_cons_ne _ hws.symm,
    Nat.succ_lt_succ_iff] at horder
  rw [horder, idxOf_flatMap_lt_iff hv hw]
  refine or_congr_right (and_congr_right fun heq => ?_)
  rw [← heq, idxOf_targets_lt_iff]

/-- The start comes first. -/
theorem idxOf_start_lt (h : Explored es start order []) {v : α} (hv : v ≠ start) :
    order.idxOf start < order.idxOf v := by
  have hhead := h.head?_order
  cases order with
  | nil => cases hhead
  | cons a order =>
      rw [Option.some_inj.mp hhead, List.idxOf_cons_self, List.idxOf_cons_ne _ hv.symm]
      exact Nat.succ_pos _

/-- The discoverer is the first vertex with an edge that leads to the one discovered. -/
theorem idxOf_discoverer_le {u u' v : α} (hv : discoverer? es order v = some u)
    (hedge : (u', v) ∈ es) : order.idxOf u ≤ order.idxOf u' :=
  idxOf_le_of_find? hv (by simpa using hedge)

/-- A vertex met can be met from one that is nearer by one. -/
theorem exists_nearer (h : Explored es start order []) {v : α} (hv : v ∈ order) (hne : v ≠ start) :
    ∃ u ∈ order, (u, v) ∈ es ∧ distance es start u + 1 = distance es start v := by
  obtain ⟨n, hwalk⟩ := (h.mem_iff_walk v).mp hv
  obtain ⟨m, u, hu, hedge, hnear⟩ := hwalk.exists_nearer hne
  exact ⟨u, (h.mem_iff_walk u).mpr ⟨m, hu⟩, hedge, hnear⟩

theorem distance_le_succ (h : Explored es start order []) {u v : α} (hu : u ∈ order)
    (hedge : (u, v) ∈ es) : distance es start v ≤ distance es start u + 1 := by
  obtain ⟨n, hwalk⟩ := (h.mem_iff_walk u).mp hu
  exact hwalk.distance_le_succ hedge

/-- **Nearer vertices come first.** By induction on the distance of the nearer
one: it can be met from a vertex that is nearer still, and that one comes before
every vertex from which the other could have been met. -/
theorem idxOf_lt_of_distance_lt (h : Explored es start order []) {v w : α} (hv : v ∈ order)
    (hw : w ∈ order) (hlt : distance es start v < distance es start w) :
    order.idxOf v < order.idxOf w := by
  generalize hd : distance es start v = d at hlt
  induction d generalizing v w with
  | zero =>
      have hws : w ≠ start := by
        rintro rfl
        rw [distance_start] at hlt
        exact Nat.not_lt_zero _ hlt
      by_cases hvs : v = start
      · rw [hvs]
        exact h.idxOf_start_lt hws
      · obtain ⟨u, -, -, hnear⟩ := h.exists_nearer hv hvs
        rw [hd] at hnear
        exact absurd hnear (Nat.succ_ne_zero _)
  | succ d ih =>
      have hvs : v ≠ start := by
        rintro rfl
        rw [distance_start] at hd
        exact absurd hd.symm (Nat.succ_ne_zero _)
      have hws : w ≠ start := by
        rintro rfl
        rw [distance_start] at hlt
        exact Nat.not_lt_zero _ hlt
      obtain ⟨dv, -, hdv, -, -⟩ := h.exists_discoverer hv hvs
      obtain ⟨dw, hdwmem, hdw, hedge, -⟩ := h.exists_discoverer hw hws
      obtain ⟨u, hu, huv, hnear⟩ := h.exists_nearer hv hvs
      -- `u` is nearer than the discoverer of `w`, and the discoverer of `v` is not behind it.
      have hfar := h.distance_le_succ hdwmem hedge
      have hbefore : order.idxOf u < order.idxOf dw := ih hu hdwmem (by omega) (by omega)
      have hfirst := idxOf_discoverer_le hdv huv
      exact (h.idxOf_lt_iff hvs hws hdv hdw).mpr (Or.inl (Nat.lt_of_le_of_lt hfirst hbefore))

theorem distance_le_of_idxOf_le (h : Explored es start order []) {v w : α} (hv : v ∈ order)
    (hw : w ∈ order) (hle : order.idxOf v ≤ order.idxOf w) :
    distance es start v ≤ distance es start w := by
  by_contra hlt
  exact absurd (h.idxOf_lt_of_distance_lt hw hv (Nat.not_le.mp hlt)) (Nat.not_lt.mpr hle)

/-- The discoverer is nearer by one. -/
theorem distance_discoverer (h : Explored es start order []) {u v : α} (hv : v ∈ order)
    (hne : v ≠ start) (hu : u ∈ order) (hedge : (u, v) ∈ es)
    (hdiscover : discoverer? es order v = some u) :
    distance es start u + 1 = distance es start v := by
  obtain ⟨u', hu', hedge', hnear⟩ := h.exists_nearer hv hne
  have hle := h.distance_le_of_idxOf_le hu hu' (idxOf_discoverer_le hdiscover hedge')
  have hge := h.distance_le_succ hu hedge
  omega

/-- **A search that came to its end lists in breadth-first order.** -/
theorem breadthFirst (h : Explored es start order []) : BreadthFirst es start order where
  head?_eq := h.head?_order
  nodup := h.nodup_order
  mem_iff := h.mem_iff_walk
  distance_le := by
    rw [List.pairwise_iff_getElem]
    intro i j hi hj hij
    apply h.distance_le_of_idxOf_le (List.getElem_mem hi) (List.getElem_mem hj)
    rw [h.nodup_order.idxOf_getElem i hi, h.nodup_order.idxOf_getElem j hj]
    exact Nat.le_of_lt hij
  discovered := by
    intro v hv hne
    obtain ⟨u, hu, hdiscover, hedge, hlt⟩ := h.exists_discoverer hv hne
    exact ⟨u, hdiscover, hlt, h.distance_discoverer hv hne hu hedge hdiscover⟩
  before_iff := by
    intro v hv w hw u u' hvs hws hdv hdw
    have horder := h.idxOf_lt_iff hvs hws hdv hdw
    constructor
    · intro hlt
      have hle := h.distance_le_of_idxOf_le hv hw (Nat.le_of_lt hlt)
      rcases Nat.lt_or_eq_of_le hle with hnear | hsame
      · exact Or.inl hnear
      · exact Or.inr ⟨hsame, horder.mp hlt⟩
    · rintro (hnear | ⟨-, hties⟩)
      · exact h.idxOf_lt_of_distance_lt hv hw hnear
      · exact horder.mpr hties

end Explored

/-! ## Reachability in a graph -/

theorem walk_eraseDups {es : List (α × α)} {start v : α} {n : Nat} :
    Walk es.eraseDups start n v ↔ Walk es start n v := by
  constructor
  · intro h
    induction h with
    | here => exact .here
    | step _ hedge ih => exact ih.step (List.mem_eraseDups.mp hedge)
  · intro h
    induction h with
    | here => exact .here
    | step _ hedge ih => exact ih.step (List.mem_eraseDups.mpr hedge)

/-- Breadth-first order depends on the edges and the order in which they came
first.  A graph stores each pair once, while the calls may join it again and
again. -/
theorem BreadthFirst.of_eraseDups {es : List (α × α)} {start : α} {order : List α}
    (h : BreadthFirst es.eraseDups start order) : BreadthFirst es start order := by
  have hdistance : ∀ v, distance es.eraseDups start v = distance es start v := by
    intro v
    simp only [distance, walk_eraseDups]
  have hdiscoverer : ∀ v, discoverer? es.eraseDups order v = discoverer? es order v := by
    intro v
    simp only [discoverer?, List.mem_eraseDups]
  refine ⟨h.head?_eq, h.nodup, fun v => ?_, ?_, fun v hv hne => ?_, ?_⟩
  · simpa only [walk_eraseDups] using h.mem_iff v
  · simpa only [hdistance] using h.distance_le
  · simpa only [hdistance, hdiscoverer] using h.discovered v hv hne
  · intro v hv w hw u u' hvs hws hdv hdw
    have hedge : ∀ {x y : α}, discoverer? es order x = some y → (y, x) ∈ es := by
      intro x y hxy
      simpa using List.find?_some hxy
    have hbefore := h.before_iff v hv w hw u u' hvs hws ((hdiscoverer v).trans hdv)
      ((hdiscoverer w).trans hdw)
    rwa [hdistance, hdistance, idxOf_eraseDups_lt_iff (hedge hdv) (hedge hdw)] at hbefore

/-- **What can be reached in a graph, by the calls that built it.**  For a value that is not a
vertex nothing is listed.  For a vertex the vertices that there is a path to are listed in
breadth-first order, and the search is over when it has made one turn for each vertex. -/
theorem reachableFrom_build (calls : List (Call α)) (start : α) :
    ((build calls).reachableFrom start = [] ↔ start ∉ (build calls).vertices) ∧
      (start ∈ (build calls).vertices →
        BreadthFirst (pairs calls) start ((build calls).reachableFrom start)) ∧
      ∀ id, (build calls).idOf? start = some id → ∀ more,
        (build calls).search ((build calls).vertexCount + more) [] [id] =
          (build calls).search (build calls).vertexCount [] [id] := by
  have h := represents_build calls
  rw [h.vertices_eq]
  refine ⟨⟨fun hnil hstart => ?_, h.reachableFrom_of_notMem⟩, fun hstart => ?_,
    fun id hid more => ?_⟩
  · have hhead := (h.reachableFrom_spec hstart).1.head?_order
    rw [hnil] at hhead
    cases hhead
  · exact (h.reachableFrom_spec hstart).1.breadthFirst.of_eraseDups
  · have hstart := List.mem_of_getElem? ((h.index start id).mp hid)
    have hturns := (h.reachableFrom_spec hstart).2
    have hplace : id = (mentions calls).eraseDups.idxOf start :=
      Option.some_inj.mp (hid.symm.trans (h.idOf?_of_mem hstart))
    rw [hplace, hturns _ (Nat.le_add_right _ _), hturns _ (Nat.le_refl _)]

/-- A graph with a cycle, a loop, two ways to one vertex, and a part that is not reached. -/
theorem reachableFrom_build_of_cycle :
    let calls : List (Call Nat) :=
      [.edge 1 2, .edge 1 3, .edge 2 1, .edge 3 3, .edge 3 4, .edge 2 4, .edge 6 5]
    (build calls).reachableFrom 1 = [1, 2, 3, 4] ∧
      BreadthFirst (pairs calls) 1 [1, 2, 3, 4] ∧
      (build calls).reachableFrom 7 = [] ∧
      (build calls).search 7 [] [0] = (build calls).search 6 [] [0] := by
  intro calls
  have horder : (build calls).reachableFrom 1 = [1, 2, 3, 4] := by decide
  obtain ⟨-, hfirst, hturns⟩ := reachableFrom_build calls 1
  have hbreadth := hfirst (by decide)
  rw [horder] at hbreadth
  exact ⟨horder, hbreadth, (reachableFrom_build calls 7).1.mpr (by decide),
    hturns 0 (by decide) 1⟩

end Digraph

end StraightLine
