import StraightLine.Proofs.Execution
import StraightLine.Proofs.Frames
import StraightLine.Proofs.Success

/-!
# Lexical scoping

Evaluation keeps every scope that was ever created in one arena and never removes any.  The other
way to run a program is with a stack of maps: a block pushes an empty map and drops it again.  Both
give the same results, and the same names have the same values afterwards.

## Main definitions

* `Frames` — a stack of finite maps, innermost first, with `Frames.read`.
* `Stmt.interpret` — running a statement over a stack.

## Main statements

* `Stmt.run_spec` — running a statement over the arena is interpreting it over the stack.
* `Stmt.lexical_scoping` — the same for the evaluation of a program.

## Design notes

* **A run is compared scope by scope.**  The outcome of a statement and the stack that it leaves in
  its own scope belong together; of all other scopes it is enough that they are spared.
* **What a block leaves on top of its stack is dropped,** so the maps below have to be those at its
  entry; that is a fact about stacks alone (`Stmt.tail_interpret`).
-/

namespace StraightLine

/-! ## The interpreter over a stack -/

/-- The bindings that a statement sees: finite maps, innermost first.  There are
no identities here and nothing is kept of a closed block, so this is the
textbook account of scoping that the arena is compared with. -/
abbrev Frames := List (Dictionary String Value)

namespace Frames

/-- The value of a name in the nearest map that holds it. -/
def read (frames : Frames) (name : String) : Option Value := frames.findSome? (·.get? name)

/-- The stack with a name bound in the top map.  A binding of the same name
further down is hidden, not changed. -/
def bind (frames : Frames) (name : String) (value : Value) : Frames :=
  frames.modifyHead (·.insert name value)

/-- The stack with an empty map on top. -/
def push (frames : Frames) : Frames := .empty :: frames

/-- The stack without its top map. -/
def pop (frames : Frames) : Frames := frames.tail

@[simp] theorem pop_push (frames : Frames) : frames.push.pop = frames := rfl

@[simp] theorem pop_bind (frames : Frames) (name : String) (value : Value) :
    (frames.bind name value).pop = frames.pop := by
  cases frames <;> rfl

end Frames

/-- The value of an expression over a stack. -/
def Expr.interpret (frames : Frames) : Expr → Except EvalError Value
  | .literal value => .ok value
  | .variable name =>
    match frames.read name with
    | some value => .ok value
    | none => .error (.undefinedVariable name)
  | .binary op left right =>
    match left.interpret frames with
    | .error e => .error e
    | .ok l =>
      match right.interpret frames with
      | .error e => .error e
      | .ok r => op.apply l r

/-- Runs an action over a stack: an assignment binds its value in the top map. -/
def Action.interpret (frames : Frames) : Action → Except EvalError (Completion × Frames)
  | .assign target value =>
    (value.interpret frames).map fun v => (.normal (some v), frames.bind target v)
  | .ret value => (value.interpret frames).map fun v => (.returned v, frames)

namespace Stmt

mutual

/-- Runs a statement over a stack.  A block runs over an empty map of its own,
which is dropped at its end whether the block completes or returns. -/
def interpret : Stmt → Frames → Except EvalError (Completion × Frames)
  | .action a, frames => a.interpret frames
  | .block body, frames =>
    (interpretAll none body frames.push).map fun (completion, inner) => (completion, inner.pop)

/-- Runs statements one after the other over a stack until one returns or fails. -/
def interpretAll (last : Option Value) :
    List Stmt → Frames → Except EvalError (Completion × Frames)
  | [], frames => .ok (.normal last, frames)
  | s :: rest, frames =>
    match s.interpret frames with
    | .error e => .error e
    | .ok (.returned value, frames) => .ok (.returned value, frames)
    | .ok (.normal value, frames) => interpretAll value rest frames

end

/-- A statement leaves the maps below the top one alone.  At the end of a block
the stack is therefore the one at its entry, which is what the arena still holds
for the scope around; without this the two interpreters would only be known to
agree inside the block. -/
theorem tail_interpret :
    (∀ (s : Stmt) (frames : Frames) (completion : Completion) (final : Frames),
        s.interpret frames = .ok (completion, final) → final.pop = frames.pop) ∧
      ∀ (body : List Stmt) (last : Option Value) (frames : Frames) (completion : Completion)
        (final : Frames),
        interpretAll last body frames = .ok (completion, final) → final.pop = frames.pop := by
  refine Stmt.induction ?action ?block ?nil ?cons
  case action =>
    intro a frames completion final h
    rw [interpret] at h
    cases a with
    | assign target value =>
        obtain ⟨v, -, hv⟩ := Except.map_eq_ok_iff.mp h
        cases hv
        exact frames.pop_bind target v
    | ret value =>
        obtain ⟨v, -, hv⟩ := Except.map_eq_ok_iff.mp h
        cases hv
        rfl
  case block =>
    intro body ih frames completion final h
    rw [interpret] at h
    obtain ⟨⟨completion', inner⟩, hbody, hfinal⟩ := Except.map_eq_ok_iff.mp h
    cases hfinal
    -- What is below the map of the block was there before it and comes back unchanged.
    rw [ih none frames.push completion inner hbody, Frames.pop_push]
  case nil =>
    intro last frames completion final h
    cases h
    rfl
  case cons =>
    intro s rest ihs ihrest last frames completion final h
    rw [interpretAll] at h
    rcases hs : s.interpret frames with e | ⟨value | value, mid⟩
    · rw [hs] at h
      cases h
    · rw [hs] at h
      rw [ihrest value mid completion final h, ihs frames _ mid hs]
    · rw [hs] at h
      cases h
      exact ihs frames _ _ hs

end Stmt

/-! ## Both interpreters side by side -/

/-- The value of an expression in a scope is its value over the stack of the
scope.  Errors are included: a name that is missed on the chain is missed in the
stack. -/
theorem Expr.evaluate_eq_interpret (env : Environment) (scope : ScopeId) (e : Expr) :
    e.evaluate env scope = e.interpret (env.frames scope) := by
  induction e with
  | literal v => rfl
  | «variable» name =>
      rw [evaluate, ScopeTree.lookup_eq_findSome?]
      rfl
  | binary op left right ihl ihr =>
      rw [evaluate, ihl, ihr]
      rfl

namespace Stmt

open ScopeTree

/-- The stack after a run: that of an interpretation, or the one at entry if it
failed.  An interpretation that fails leaves no stack, while the arena is there
after every run, so the comparison has to say which stack is meant. -/
def framesAfter (entry : Frames) : Except EvalError (Completion × Frames) → Frames
  | .ok (_, frames) => frames
  | .error _ => entry

/-- An action over the arena does what it does over the stack of its scope. -/
theorem run_action_spec (scope : ScopeId) (position : Nat) (a : Action) (state : Run)
    (ranked : state.scopes.Ranked) (hscope : scope < state.scopes.size) :
    Spares scope state.scopes (a.run scope position state).2.scopes ∧
      (a.run scope position state).1 =
        (a.interpret (state.scopes.frames scope)).map Prod.fst ∧
      (a.run scope position state).2.scopes.frames scope =
        framesAfter (state.scopes.frames scope) (a.interpret (state.scopes.frames scope)) := by
  have hvalue := a.value.evaluate_eq_interpret state.scopes scope
  rcases a.run_cases scope position state with
    ⟨e, heval, hrun⟩ | ⟨target, expr, value, rfl, heval, hrun⟩ | ⟨expr, value, rfl, heval, hrun⟩
  · rw [hrun]
    have hinterpret : a.interpret (state.scopes.frames scope) = .error e := by
      rw [heval] at hvalue
      cases a <;> exact congrArg (Except.map _) hvalue.symm
    rw [hinterpret]
    exact ⟨.refl ranked, rfl, rfl⟩
  · have hvalue : expr.interpret (state.scopes.frames scope) = .ok value := hvalue ▸ heval
    rw [hrun, Action.interpret, hvalue]
    exact ⟨.declare ranked target value, rfl, ranked.frames_declare_self hscope target value⟩
  · have hvalue : expr.interpret (state.scopes.frames scope) = .ok value := hvalue ▸ heval
    rw [hrun, Action.interpret, hvalue]
    exact ⟨.refl ranked, rfl, rfl⟩

/-- **Running a statement over the arena is interpreting it over the stack of
its scope.** The outcome is the same, the scopes that are not concerned are
spared, and the scope ends with the stack that the interpretation leaves.

The last two parts are what the induction lives on: the next statement of a
block starts from the stack that this one has left, and the scope around a block
gets its stack back because the block has spared it.  Of a list that fails,
nothing is said about its own scope, since what it assigned before is still
there. -/
theorem run_spec :
    (∀ (s : Stmt) (scope : ScopeId) (position : Nat) (state : Run), state.scopes.Ranked →
        scope < state.scopes.size →
        Spares scope state.scopes (s.run scope position state).2.scopes ∧
          (s.run scope position state).1 =
            (s.interpret (state.scopes.frames scope)).map Prod.fst ∧
          (s.run scope position state).2.scopes.frames scope =
            framesAfter (state.scopes.frames scope) (s.interpret (state.scopes.frames scope))) ∧
      ∀ (body : List Stmt) (scope : ScopeId) (position : Nat) (last : Option Value) (state : Run),
        state.scopes.Ranked → scope < state.scopes.size →
        Spares scope state.scopes (runAll scope position last body state).2.scopes ∧
          (runAll scope position last body state).1 =
            (interpretAll last body (state.scopes.frames scope)).map Prod.fst ∧
          ∀ completion frames,
            interpretAll last body (state.scopes.frames scope) = .ok (completion, frames) →
            (runAll scope position last body state).2.scopes.frames scope = frames := by
  refine Stmt.induction ?action ?block ?nil ?cons
  case action =>
    intro a scope position state ranked hscope
    rw [run, interpret]
    exact run_action_spec scope position a state ranked hscope
  case block =>
    intro body ih scope position state ranked hscope
    have hall : ∀ p ∈ some scope, p < state.scopes.size := by simpa using hscope
    have hlocal : state.scopes.size < (state.enter scope).scopes.size := by
      show _ < (state.scopes.create _).size
      rw [size_create]
      exact Nat.lt_succ_self _
    have hframes : (state.enter scope).scopes.frames state.scopes.size =
        Frames.push (state.scopes.frames scope) := ranked.frames_create_self hscope
    obtain ⟨hspares, houtcome, -⟩ :=
      ih state.scopes.size position none (state.enter scope) (ranked.create hall) hlocal
    obtain ⟨hspares, hkept⟩ := hspares.of_create ranked hscope
    rw [run, interpret]
    rw [hframes] at houtcome
    refine ⟨hspares, ?_, ?_⟩
    · rw [houtcome]
      cases interpretAll none body (Frames.push (state.scopes.frames scope)) <;> rfl
    · rw [hkept scope hscope]
      rcases hbody : interpretAll none body (Frames.push (state.scopes.frames scope)) with
        e | ⟨completion, inner⟩
      · rfl
      · exact (tail_interpret.2 body none _ completion inner hbody).symm
  case nil =>
    intro scope position last state ranked _
    rw [runAll, interpretAll]
    refine ⟨.refl ranked, rfl, fun completion frames h => ?_⟩
    cases h
    rfl
  case cons =>
    intro s rest ihs ihrest scope position last state ranked hscope
    obtain ⟨hspares, houtcome, hframes⟩ := ihs scope position state ranked hscope
    rw [runAll_cons, interpretAll]
    -- The outcome of the first statement decides whether the others are run at all.
    rcases hrun : s.run scope position state with ⟨outcome, next⟩
    rw [hrun] at hspares houtcome hframes
    rcases hs : s.interpret (state.scopes.frames scope) with e | ⟨value | value, mid⟩
    · rw [hs] at houtcome
      cases houtcome
      refine ⟨hspares, rfl, fun _ _ h => ?_⟩
      cases h
    · rw [hs] at houtcome hframes
      cases houtcome
      obtain ⟨hrest, houtcome', hframes'⟩ :=
        ihrest scope (position + s.actionCount) value next hspares.ranked
          (Nat.lt_of_lt_of_le hscope hspares.size_le)
      have hmid : next.scopes.frames scope = mid := hframes
      rw [hmid] at houtcome' hframes'
      exact ⟨hspares.trans hrest, houtcome', hframes'⟩
    · rw [hs] at houtcome hframes
      cases houtcome
      refine ⟨hspares, rfl, fun _ _ h => ?_⟩
      cases h
      exact hframes

/-- **The arena of scopes implements lexical scoping.**  In any scope of any environment that can be
grown by creation and declaration, evaluating a program gives the same result as interpreting it
over the stack of binding maps along the chain of the scope.  Afterwards every name has the value
that it has in the stack which the interpretation leaves, or in the one at entry if it failed. -/
theorem lexical_scoping {env : Environment} {scope : ScopeId} (program : Stmt) (grown : env.Grown)
    (hscope : scope < env.size) :
    (program.evaluate env scope).1 =
        (program.interpret (env.frames scope)).map (fun result => result.1.value?) ∧
      ∀ name, (program.evaluate env scope).2.lookup scope name =
        (framesAfter (env.frames scope) (program.interpret (env.frames scope))).read name := by
  obtain ⟨-, houtcome, hframes⟩ :=
    run_spec.1 program scope 0 (.start env) grown.ranked hscope
  refine ⟨?_, fun name => ?_⟩
  · show ((program.run scope 0 (.start env)).1.map Completion.value?) = _
    rw [houtcome]
    show ((program.interpret (env.frames scope)).map Prod.fst).map Completion.value? = _
    cases program.interpret (env.frames scope) <;> rfl
  · show (program.run scope 0 (.start env)).2.scopes.lookup scope name = _
    rw [lookup_eq_findSome?, hframes]
    rfl

/-- An inner block reads the name around it before it shadows it, and neither of the two bindings
made inside shows in the scope where the program was started. -/
theorem lexical_scoping_of_shadowing :
    let env : Environment := ScopeTree.withRoot.declare 0 "x" (.int 3)
    let program : Stmt := .block [
      .assign "y" (.literal (.int 1)),
      .block [.assign "x" (.binary .plus (.variable "x") (.variable "y")), .ret (.variable "x")],
      .ret (.variable "y")]
    env.Grown ∧ 0 < env.size ∧ (program.evaluate env 0).1 = .ok (some (.int 4)) ∧
      (program.evaluate env 0).2.lookup 0 "x" = some (.int 3) ∧
      (program.evaluate env 0).2.lookup 0 "y" = none := by
  intro env program
  have hroot : (ScopeTree.withRoot : Environment).Grown := .root .empty
  have grown : env.Grown := .declare "x" (.int 3) hroot (by decide)
  have hscope : 0 < env.size := by decide
  obtain ⟨hresult, hlookup⟩ := lexical_scoping program grown hscope
  exact ⟨grown, hscope, hresult.trans (by rfl), (hlookup "x").trans (by rfl),
    (hlookup "y").trans (by rfl)⟩

end Stmt

end StraightLine
