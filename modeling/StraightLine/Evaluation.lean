import StraightLine.Arithmetic
import StraightLine.ScopeTree
import StraightLine.Stmt

/-!
# Evaluation

Programs are run over a tree of scopes that hold values.  A block runs in a fresh scope below the
one it was entered with, so what is assigned inside never shows outside.  A return stops the block
it stands in and every block around it; an error stops the run.

## Main definitions

* `Environment` — a scope tree of values.
* `Expr.evaluate` — the value of an expression; it never changes the environment.
* `Run` — the state of a run: the environment so far and the actions started so far.
* `Stmt.run`, `Stmt.evaluate` — running a statement.

## Design notes

* **The state survives an error.**  A run returns its outcome and its state side by side, so what
  was assigned before a failing statement is still there.
* **A run records the actions it starts.**  `Run.started` is the execution as a list of occurrences;
  of a failed run the last one is the action that failed.
-/

namespace StraightLine

/-- Scopes that hold values. -/
abbrev Environment := ScopeTree Value

/-- How a statement finished.  A return is passed on through all blocks around
it, so it has to be told apart from a statement that merely has a value. -/
inductive Completion where
  /-- The run goes on; a statement may have a value. -/
  | normal (value : Option Value)
  /-- A return was executed. -/
  | returned (value : Value)
  deriving DecidableEq

/-- The value with which a statement finished. -/
def Completion.value? : Completion → Option Value
  | .normal value => value
  | .returned value => some value

/-- The value of an expression in a scope.  Operands are evaluated from left to
right and the first error ends the evaluation; a right operand is not looked at
behind a left one that failed. -/
def Expr.evaluate (env : Environment) (scope : ScopeId) : Expr → Except EvalError Value
  | .literal value => .ok value
  | .variable name =>
    match env.lookup scope name with
    | some value => .ok value
    | none => .error (.undefinedVariable name)
  | .binary op left right =>
    match left.evaluate env scope with
    | .error e => .error e
    | .ok l =>
      match right.evaluate env scope with
      | .error e => .error e
      | .ok r => op.apply l r

/-- The value of an expression without variables in scope. -/
def Expr.evaluateClosed (e : Expr) : Except EvalError Value := e.evaluate .withRoot 0

/-- The state of a run.  The actions are recorded when they begin and not when
they succeed, so the last one of a failed run is the one that failed. -/
structure Run where
  /-- The scopes with their values. -/
  scopes : Environment
  /-- The actions whose execution has begun, in order. -/
  started : Array Occurrence
  deriving Inhabited

namespace Run

/-- A run that has not begun. -/
def start (scopes : Environment) : Run := ⟨scopes, #[]⟩

/-- The state in which an action begins. -/
def begin (run : Run) (position : Nat) (action : Action) : Run :=
  { run with started := run.started.push ⟨position, action⟩ }

/-- The state with a name bound. -/
def declare (run : Run) (scope : ScopeId) (name : String) (value : Value) : Run :=
  { run with scopes := run.scopes.declare scope name value }

/-- The state with a fresh scope below a given one. -/
def enter (run : Run) (scope : ScopeId) : Run :=
  { run with scopes := run.scopes.create (some scope) }

end Run

/-- Runs one action in a scope.  Only an assignment whose value has no error
changes the scopes, and it binds its target in the scope of the action, whatever
scopes around bind the same name. -/
def Action.run (scope : ScopeId) (position : Nat) (action : Action) (run : Run) :
    Except EvalError Completion × Run :=
  let run := run.begin position action
  match action.value.evaluate run.scopes scope with
  | .error e => (.error e, run)
  | .ok value =>
    match action with
    | .assign target _ => (.ok (.normal (some value)), run.declare scope target value)
    | .ret _ => (.ok (.returned value), run)

namespace Stmt

mutual

/-- Runs a statement whose first action has the given position.  A block runs in
a fresh scope, which is named by the number of scopes before and is never
removed. -/
def run (scope : ScopeId) (position : Nat) : Stmt → Run → Except EvalError Completion × Run
  | .action a, state => a.run scope position state
  | .block body, state => runAll state.scopes.size position none body (state.enter scope)

/-- Runs statements one after the other until one returns or fails.  The value of the last one so
far is the value of the whole. -/
def runAll (scope : ScopeId) (position : Nat) (last : Option Value) :
    List Stmt → Run → Except EvalError Completion × Run
  | [], state => (.ok (.normal last), state)
  | s :: rest, state =>
    match s.run scope position state with
    | (.ok (.normal value), next) => runAll scope (position + s.actionCount) value rest next
    | (.ok (.returned value), next) => (.ok (.returned value), next)
    | (.error e, next) => (.error e, next)

end

/-- Runs a program in a scope of an environment. -/
def execute (program : Stmt) (env : Environment) (scope : ScopeId) :
    Except EvalError Completion × Run :=
  program.run scope 0 (.start env)

/-- The value of a program, or its error, and the environment that it leaves.  A
block that neither returns nor ends in a statement with a value has none.  The
environment is there for an error too, with everything that was bound before it. -/
def evaluate (program : Stmt) (env : Environment) (scope : ScopeId) :
    Except EvalError (Option Value) × Environment :=
  let (outcome, run) := program.execute env scope
  (outcome.map Completion.value?, run.scopes)

end Stmt

end StraightLine
