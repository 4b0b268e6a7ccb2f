import StraightLine.Flow

/-!
# The actions of a program in text order

Every action of a program together with its position, from left to right through all nested blocks,
and the part of that list that lies up to the first return.

## Main definitions

* `Occurrence.number` — actions numbered from a given position on.
* `Occurrence.upToReturn` — a list of occurrences cut off behind its first return.
* `Stmt.occurrences`, `Stmt.live` — both for a whole program.

## Main statements

* `Stmt.filterMap_preorder` — the occurrences are what is left of the statements of a program, in
  text order, when the blocks are taken away.
* `Occurrence.upToReturn_cases` — either no return occurs, or the list is cut right behind the first
  one.
-/

namespace StraightLine

namespace Occurrence

/-- Actions as occurrences, the first of them at the given position.  An
occurrence is an action with its position, so equal actions at different places
are different occurrences; these are the vertices of a flow graph. -/
def number : Nat → List Action → List Occurrence
  | _, [] => []
  | position, a :: rest => ⟨position, a⟩ :: number (position + 1) rest

@[simp] theorem number_nil (position : Nat) : number position [] = [] := rfl

@[simp] theorem number_cons (position : Nat) (a : Action) (rest : List Action) :
    number position (a :: rest) = ⟨position, a⟩ :: number (position + 1) rest := rfl

@[simp] theorem length_number (actions : List Action) :
    ∀ position, (number position actions).length = actions.length := by
  induction actions with
  | nil => intro position; rfl
  | cons a rest ih => intro position; simp [ih]

theorem number_append (xs ys : List Action) :
    ∀ position, number position (xs ++ ys) =
      number position xs ++ number (position + xs.length) ys := by
  induction xs with
  | nil => intro position; simp
  | cons a rest ih =>
      intro position
      simp only [List.cons_append, number_cons, ih, List.length_cons]
      congr 3
      omega

theorem map_action_number (actions : List Action) :
    ∀ position, (number position actions).map Occurrence.action = actions := by
  induction actions with
  | nil => intro position; rfl
  | cons a rest ih => intro position; simp [ih]

theorem getElem?_number (actions : List Action) :
    ∀ position i : Nat, (number position actions)[i]? =
      actions[i]?.map (Occurrence.mk (position + i)) := by
  induction actions with
  | nil => intro position i; simp
  | cons a rest ih =>
      intro position i
      cases i with
      | zero => simp
      | succ i =>
          have hshift : position + 1 + i = position + (i + 1) := by omega
          simp [ih, hshift]

/-- Positions count from the first one on: an occurrence carries its own index
in the list. -/
theorem position_eq_of_getElem? {actions : List Action} {position i : Nat} {v : Occurrence}
    (h : (number position actions)[i]? = some v) : v.position = position + i := by
  rw [getElem?_number] at h
  obtain ⟨a, -, rfl⟩ := Option.map_eq_some_iff.mp h
  rfl

theorem position_bounds {actions : List Action} {position : Nat} {v : Occurrence}
    (h : v ∈ number position actions) :
    position ≤ v.position ∧ v.position < position + actions.length := by
  obtain ⟨i, hi⟩ := List.mem_iff_getElem?.mp h
  have hlt : i < (number position actions).length := (List.getElem?_eq_some_iff.mp hi).1
  rw [length_number] at hlt
  have hposition := position_eq_of_getElem? hi
  omega

/-- No two occurrences of a program are equal, since no two have one position.
A flow graph finds its vertices by value, so this is why no two actions of a
program are merged in it. -/
theorem nodup_number (actions : List Action) : ∀ position, (number position actions).Nodup := by
  induction actions with
  | nil => intro position; simp
  | cons a rest ih =>
      intro position
      rw [number_cons, List.nodup_cons]
      refine ⟨fun hmem => ?_, ih (position + 1)⟩
      have hbound := (position_bounds hmem).1
      simp only at hbound
      omega

/-! ## Cutting behind the first return -/

/-- The occurrences up to the first return, that return included.  What comes
behind it is kept in the graph but has no edges. -/
def upToReturn : List Occurrence → List Occurrence
  | [] => []
  | v :: rest => if v.action.isReturn then [v] else v :: upToReturn rest

@[simp] theorem upToReturn_nil : upToReturn [] = [] := rfl

theorem upToReturn_cons_of_return {v : Occurrence} (h : v.action.isReturn = true)
    (rest : List Occurrence) : upToReturn (v :: rest) = [v] := by
  simp [upToReturn, h]

theorem upToReturn_cons_of_not_return {v : Occurrence} (h : v.action.isReturn = false)
    (rest : List Occurrence) : upToReturn (v :: rest) = v :: upToReturn rest := by
  simp [upToReturn, h]

@[simp] theorem upToReturn_singleton (v : Occurrence) : upToReturn [v] = [v] := by
  unfold upToReturn
  split <;> rfl

/-- Without a return in front, the cut falls into the rest. -/
theorem upToReturn_append_of_forall {xs : List Occurrence}
    (h : ∀ v ∈ xs, v.action.isReturn = false) (ys : List Occurrence) :
    upToReturn (xs ++ ys) = xs ++ upToReturn ys := by
  induction xs with
  | nil => rfl
  | cons v rest ih =>
      have hrest : ∀ w ∈ rest, w.action.isReturn = false :=
        fun w hw => h w (List.mem_cons_of_mem v hw)
      rw [List.cons_append, upToReturn_cons_of_not_return (h v List.mem_cons_self), ih hrest]
      rfl

/-- Without any return nothing is cut off. -/
theorem upToReturn_of_forall {xs : List Occurrence} (h : ∀ v ∈ xs, v.action.isReturn = false) :
    upToReturn xs = xs := by
  simpa using upToReturn_append_of_forall h []

/-- The cut behind a first return. -/
theorem upToReturn_append_return {xs : List Occurrence}
    (h : ∀ v ∈ xs, v.action.isReturn = false) {r : Occurrence} (hr : r.action.isReturn = true)
    (ys : List Occurrence) : upToReturn (xs ++ r :: ys) = xs ++ [r] := by
  rw [upToReturn_append_of_forall h, upToReturn_cons_of_return hr]

/-- Either no return occurs, or there is a first one.  Everything about live and
dead actions splits on these two cases. -/
theorem upToReturn_cases (vs : List Occurrence) :
    (∀ v ∈ vs, v.action.isReturn = false) ∨
      ∃ before r after, vs = before ++ r :: after ∧
        (∀ v ∈ before, v.action.isReturn = false) ∧ r.action.isReturn = true := by
  cases hfind : vs.find? (·.action.isReturn) with
  | none => exact Or.inl fun v hv => by simpa using List.find?_eq_none.mp hfind v hv
  | some r =>
      obtain ⟨hr, before, after, hsplit, hbefore⟩ := List.find?_eq_some_iff_append.mp hfind
      exact Or.inr ⟨before, r, after, hsplit, fun v hv => by simpa using hbefore v hv, hr⟩

/-- Behind a return the cut no longer moves.  A construction that goes on adding
vertices therefore leaves the path as it is. -/
theorem upToReturn_append_of_exists {xs : List Occurrence}
    (h : ∃ v ∈ xs, v.action.isReturn = true) (ys : List Occurrence) :
    upToReturn (xs ++ ys) = upToReturn xs := by
  rcases upToReturn_cases xs with hnone | ⟨before, r, after, rfl, hbefore, hr⟩
  · obtain ⟨v, hv, hret⟩ := h
    rw [hnone v hv] at hret
    cases hret
  · rw [List.append_assoc, List.cons_append, upToReturn_append_return hbefore hr,
      upToReturn_append_return hbefore hr]

theorem upToReturn_isPrefix (vs : List Occurrence) : upToReturn vs <+: vs := by
  rcases upToReturn_cases vs with hnone | ⟨before, r, after, rfl, hbefore, hr⟩
  · exact ⟨[], by rw [upToReturn_of_forall hnone, List.append_nil]⟩
  · rw [upToReturn_append_return hbefore hr]
    exact ⟨after, by simp⟩

/-- A list is its live part and what comes behind. -/
theorem upToReturn_append_drop (vs : List Occurrence) :
    upToReturn vs ++ vs.drop (upToReturn vs).length = vs := by
  obtain ⟨rest, hrest⟩ := upToReturn_isPrefix vs
  have hdrop : (upToReturn vs ++ rest).drop (upToReturn vs).length = rest := List.drop_left
  rw [hrest] at hdrop
  rw [hdrop, hrest]

/-- Cutting twice is cutting once. -/
theorem upToReturn_upToReturn (vs : List Occurrence) :
    upToReturn (upToReturn vs) = upToReturn vs := by
  rcases upToReturn_cases vs with hnone | ⟨before, r, after, rfl, hbefore, hr⟩
  · rw [upToReturn_of_forall hnone, upToReturn_of_forall hnone]
  · rw [upToReturn_append_return hbefore hr, upToReturn_append_return hbefore hr]

end Occurrence

namespace Flow

@[simp] theorem vertexOf?_action (position : Nat) (a : Action) :
    vertexOf? position (.action a) = some ⟨position, a⟩ := rfl

end Flow

namespace Stmt

/-- The actions of a program as occurrences, in text order. -/
def occurrences (program : Stmt) : List Occurrence := Occurrence.number 0 program.actions

/-- The occurrences up to the first return. -/
def live (program : Stmt) : List Occurrence := Occurrence.upToReturn program.occurrences

theorem nodup_occurrences (program : Stmt) : program.occurrences.Nodup :=
  Occurrence.nodup_number _ 0

theorem length_occurrences (program : Stmt) :
    program.occurrences.length = program.actionCount := by
  rw [occurrences, Occurrence.length_number, length_actions.1]

theorem exists_return_iff (program : Stmt) :
    (∃ a ∈ program.actions, a.isReturn = true) ↔
      ∃ v ∈ program.occurrences, v.action.isReturn = true := by
  rw [← Occurrence.map_action_number program.actions 0]
  simp only [List.mem_map]
  constructor
  · rintro ⟨a, ⟨v, hv, rfl⟩, hret⟩
    exact ⟨v, hv, hret⟩
  · rintro ⟨v, hv, hret⟩
    exact ⟨v.action, ⟨v, hv, rfl⟩, hret⟩

/-- Splitting the occurrences splits their positions. -/
theorem position_of_append {program : Stmt} {xs ys : List Occurrence}
    (h : program.occurrences = xs ++ ys) :
    (∀ v ∈ xs, v.position < xs.length) ∧ ∀ v ∈ ys, xs.length ≤ v.position := by
  have hposition : ∀ (i : Nat) (v : Occurrence), (xs ++ ys)[i]? = some v → v.position = i := by
    intro i v hi
    rw [← h] at hi
    rw [Occurrence.position_eq_of_getElem? hi, Nat.zero_add]
  constructor
  · intro v hv
    obtain ⟨i, hi⟩ := List.mem_iff_getElem?.mp hv
    have hlt : i < xs.length := (List.getElem?_eq_some_iff.mp hi).1
    rw [hposition i v (by rw [List.getElem?_append_left hlt, hi])]
    exact hlt
  · intro v hv
    obtain ⟨i, hi⟩ := List.mem_iff_getElem?.mp hv
    have hshift : (xs ++ ys)[xs.length + i]? = some v := by
      rw [List.getElem?_append_right (Nat.le_add_right ..), Nat.add_sub_cancel_left, hi]
    rw [hposition _ v hshift]
    exact Nat.le_add_right ..

/-- The live occurrences come first. -/
theorem live_append_drop (program : Stmt) :
    program.live ++ program.occurrences.drop program.live.length = program.occurrences :=
  Occurrence.upToReturn_append_drop program.occurrences

/-- Taking the blocks away from the statements in text order leaves the actions,
each at its position.  A flow graph is asked about statements by their place in
this order, so it is how its answers are related to the occurrences. -/
theorem filterMap_preorderAt :
    (∀ (s : Stmt) (position : Nat),
        (s.preorderAt position).filterMap (fun p => Flow.vertexOf? p.1 p.2) =
          Occurrence.number position s.actions) ∧
      (∀ (body : List Stmt) (position : Nat),
        (preorderAt.preorderOfAt position body).filterMap (fun p => Flow.vertexOf? p.1 p.2) =
          Occurrence.number position (actionsOf body)) := by
  refine Stmt.induction ?action ?block ?nil ?cons
  case action =>
    intro a position
    simp [preorderAt]
  case block =>
    intro body ih position
    rw [preorderAt, List.filterMap_cons_none rfl, ih, actions_block]
  case nil =>
    intro position
    simp [preorderAt.preorderOfAt]
  case cons =>
    intro s rest ihs ihrest position
    simp [preorderAt.preorderOfAt, ihs, ihrest, Occurrence.number_append, length_actions.1]

theorem filterMap_preorder (program : Stmt) :
    program.preorder.filterMap (fun p => Flow.vertexOf? p.1 p.2) = program.occurrences :=
  filterMap_preorderAt.1 program 0

theorem mem_occurrences_of_mem_preorder {program : Stmt} {position : Nat} {a : Action}
    (h : (position, .action a) ∈ program.preorder) : ⟨position, a⟩ ∈ program.occurrences := by
  rw [← filterMap_preorder]
  exact List.mem_filterMap.mpr ⟨_, h, rfl⟩

end Stmt

end StraightLine
