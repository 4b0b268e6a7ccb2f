import StraightLine.Proofs.LexicalScoping

/-!
# The meaning of a program over what it sees

Of the scopes in which a program runs only one thing matters for its result: which value every name
has there.  So the meaning of a program is a function of a map from names to values, and a block
runs over a copy of the map that is thrown away at its end.

## Main definitions

* `View` — the value of every name that can be seen.
* `Stmt.denote` — running a statement over a view.

## Main statements

* `Stmt.interpret_map_read` — interpreting a statement over a stack of maps is running it over what
  can be read in the stack.
* `Stmt.evaluate_eq_denote` — hence the result of a program is its meaning over what it sees from
  its scope.

## Design notes

* **A view is a function, not a container.**  How the bindings are spread over scopes is gone, and
  two environments of any shape can be compared name by name.
-/

namespace StraightLine

/-- The value of every name, as a program sees it.  A name without value is one
that can not be seen, and reading it is an error. -/
abbrev View := String → Option Value

/-- The view in which a name has a new value. -/
def View.bind (view : View) (name : String) (value : Value) : View :=
  fun other => if name = other then some value else view other

/-- The value of an expression over a view.  The left operand is evaluated
first, so its error comes before one of the right operand or of the operator. -/
def Expr.denote (view : View) : Expr → Except EvalError Value
  | .literal value => .ok value
  | .variable name =>
    match view name with
    | some value => .ok value
    | none => .error (.undefinedVariable name)
  | .binary op left right =>
    (left.denote view).bind fun l => (right.denote view).bind fun r => op.apply l r

/-- Runs an action over a view. -/
def Action.denote (view : View) : Action → Except EvalError (Completion × View)
  | .assign target value =>
    (value.denote view).map fun v => (.normal (some v), view.bind target v)
  | .ret value => (value.denote view).map fun v => (.returned v, view)

namespace Stmt

mutual

/-- Runs a statement over a view.  A block leaves the view as it was: what it
assigns, also to a name that can be seen around it, is gone at its end. -/
def denote : Stmt → View → Except EvalError (Completion × View)
  | .action a, view => a.denote view
  | .block body, view => (denoteAll none body view).map fun result => (result.1, view)

/-- Runs statements one after the other over a view until one returns or fails.
The result of the list is that of its last statement, and `last` if there is
none. -/
def denoteAll (last : Option Value) : List Stmt → View → Except EvalError (Completion × View)
  | [], view => .ok (.normal last, view)
  | s :: rest, view =>
    (s.denote view).bind fun
      | (.returned value, view) => .ok (.returned value, view)
      | (.normal value, view) => denoteAll value rest view

end

end Stmt

/-! ## Views of a stack -/

namespace Frames

/-- An empty map on top hides nothing, so entering a block changes no value that
can be read. -/
@[simp] theorem read_push (frames : Frames) : frames.push.read = frames.read := rfl

/-- A name bound in the top map is what is seen of it, whatever the maps below
say.  This needs a top map: in an empty stack the binding would be lost. -/
theorem read_bind {frames : Frames} (h : frames ≠ []) (name : String) (value : Value) :
    (frames.bind name value).read = View.bind frames.read name value := by
  obtain ⟨top, below, rfl⟩ := List.exists_cons_of_ne_nil h
  funext other
  show ((top.insert name value :: below).findSome? (·.get? other)) = _
  rw [List.findSome?_cons, Dictionary.get?_insert, View.bind]
  by_cases hsame : name = other
  · rw [if_pos hsame, if_pos hsame]
  · rw [if_neg hsame, if_neg hsame]
    rfl

theorem bind_ne_nil {frames : Frames} (h : frames ≠ []) (name : String) (value : Value) :
    frames.bind name value ≠ [] := by
  obtain ⟨top, below, rfl⟩ := List.exists_cons_of_ne_nil h
  exact List.cons_ne_nil _ _

end Frames

/-- What an expression reads in a stack is all that matters: how the bindings
are spread over the maps can not be told from its value or its error. -/
theorem Expr.interpret_eq_denote (frames : Frames) (e : Expr) :
    e.interpret frames = e.denote frames.read := by
  induction e with
  | literal v => rfl
  | «variable» name => rfl
  | binary op left right ihl ihr =>
      rw [interpret, denote, ihl, ihr]
      cases left.denote frames.read with
      | error e => rfl
      | ok l => cases right.denote frames.read <;> rfl

namespace Stmt

/-- The result of an interpretation with the final stack seen from outside. -/
def seen (result : Except EvalError (Completion × Frames)) : Except EvalError (Completion × View) :=
  result.map fun r => (r.1, r.2.read)

/-- **Interpreting a statement over a stack is running it over what can be read there.**  The stack
is not empty, so that assignments are kept, and it never becomes empty. -/
theorem interpret_map_read :
    (∀ (s : Stmt) (frames : Frames), frames ≠ [] →
        seen (s.interpret frames) = s.denote frames.read ∧
          ∀ completion final, s.interpret frames = .ok (completion, final) → final ≠ []) ∧
      ∀ (body : List Stmt) (last : Option Value) (frames : Frames), frames ≠ [] →
        seen (interpretAll last body frames) = denoteAll last body frames.read := by
  refine Stmt.induction ?action ?block ?nil ?cons
  case action =>
    intro a frames hne
    rw [interpret, denote]
    cases a with
    | assign target value =>
        rw [Action.interpret, Action.denote, value.interpret_eq_denote]
        cases value.denote frames.read with
        | error e => exact ⟨rfl, fun _ _ h => by cases h⟩
        | ok v =>
            refine ⟨congrArg (fun view => Except.ok (_, view)) (Frames.read_bind hne target v), ?_⟩
            intro completion final h
            cases h
            exact Frames.bind_ne_nil hne target v
    | ret value =>
        rw [Action.interpret, Action.denote, value.interpret_eq_denote]
        cases value.denote frames.read with
        | error e => exact ⟨rfl, fun _ _ h => by cases h⟩
        | ok v =>
            refine ⟨rfl, fun completion final h => ?_⟩
            cases h
            exact hne
  case block =>
    intro body ih frames hne
    have hbody := ih none frames.push (List.cons_ne_nil _ _)
    rw [Frames.read_push] at hbody
    rw [interpret, denote, ← hbody]
    rcases hinner : interpretAll none body frames.push with e | ⟨completion, inner⟩
    · exact ⟨rfl, fun _ _ h => by cases h⟩
    · -- What is left below the map of the block is the stack at its entry.
      have hpop : inner.pop = frames := tail_interpret.2 body none _ completion inner hinner
      show seen (.ok (completion, inner.pop)) = _ ∧ _
      rw [hpop]
      refine ⟨rfl, fun completion' final h => ?_⟩
      cases h
      rw [hpop]
      exact hne
  case nil =>
    intro last frames _
    rw [interpretAll, denoteAll]
    rfl
  case cons =>
    intro s rest ihs ihrest last frames hne
    obtain ⟨hs, hnext⟩ := ihs frames hne
    rw [interpretAll, denoteAll, ← hs]
    rcases hrun : s.interpret frames with e | ⟨value | value, mid⟩
    · rfl
    · exact ihrest value mid (hnext _ _ hrun)
    · rfl

open ScopeTree

/-- **The result of a program is its meaning over what it sees** from the scope in which it is
started. -/
theorem evaluate_eq_denote {env : Environment} {scope : ScopeId} (program : Stmt)
    (grown : env.Grown) (hscope : scope < env.size) :
    (program.evaluate env scope).1 =
      (program.denote (env.lookup scope)).map fun result => result.1.value? := by
  obtain ⟨-, houtcome, -⟩ := run_spec.1 program scope 0 (.start env) grown.ranked hscope
  obtain ⟨above, habove, -⟩ := grown.ranked.exists_ancestors_eq hscope
  obtain ⟨top, htop⟩ := exists_get? hscope
  have hne : env.frames scope ≠ [] := by
    have hbindings : env.bindings? scope = some top.bindings := by
      rw [bindings?, htop]
      rfl
    rw [frames, habove, List.filterMap_cons_some hbindings]
    exact List.cons_ne_nil _ _
  have hview : env.lookup scope = Frames.read (env.frames scope) :=
    funext fun name => env.lookup_eq_findSome? scope name
  rw [hview, ← (interpret_map_read.1 program _ hne).1]
  show ((program.run scope 0 (.start env)).1.map Completion.value?) = _
  rw [houtcome]
  show ((program.interpret (env.frames scope)).map Prod.fst).map Completion.value? = _
  cases program.interpret (env.frames scope) <;> rfl

end Stmt

end StraightLine
