import StraightLine.ScopeTree
import StraightLine.Stmt

/-!
# Name resolution

Checks for every variable read whether some scope of the chain declares the name.  Nothing stops the
pass: a program with unresolved names is an expected outcome, and every assignment declares its
target whether or not its value resolves.

## Main definitions

* `Declarations` — a scope tree that records only which names exist.
* `Resolver` — the declarations and the events of a pass.
* `Stmt.resolve`, `Expr.resolve` — the pass, with its verdict.
* `Resolver.unresolved` — the reads that failed.
-/

namespace StraightLine

/-- Scopes that record which names exist. -/
abbrev Declarations := ScopeTree Unit

/-- A variable read, with the position of the action it stands in. -/
structure Read where
  name : String
  position : Nat
  deriving DecidableEq, Repr

/-- What a resolution pass meets.  Failed reads and declarations are kept in one
sequence, so their order relative to each other is known. -/
inductive ResolutionEvent where
  /-- A read of a name that no scope of the chain declares. -/
  | unresolved (read : Read)
  /-- A declaration. -/
  | declared (name : String)
  deriving DecidableEq, Repr

/-- The state of a resolution pass.  It holds scopes without values: a pass only
asks whether a name can be seen. -/
structure Resolver where
  scopes : Declarations
  events : Array ResolutionEvent
  deriving Inhabited

namespace Resolver

/-- A pass that has not begun. -/
def start (scopes : Declarations) : Resolver := ⟨scopes, #[]⟩

/-- The reads that failed so far, in text order and with repeats. -/
def unresolvedReads (r : Resolver) : List Read :=
  r.events.toList.filterMap fun
    | .unresolved read => some read
    | .declared _ => none

/-- The names that failed to resolve so far, in text order and with repeats. -/
def unresolved (r : Resolver) : List String := r.unresolvedReads.map (·.name)

/-- Records a failed read. -/
def miss (r : Resolver) (read : Read) : Resolver :=
  { r with events := r.events.push (.unresolved read) }

/-- Declares a name in a scope. -/
def declare (r : Resolver) (scope : ScopeId) (name : String) : Resolver :=
  { scopes := r.scopes.declare scope name (), events := r.events.push (.declared name) }

/-- Adds a scope below a given one. -/
def enter (r : Resolver) (scope : ScopeId) : Resolver :=
  { r with scopes := r.scopes.create (some scope) }

end Resolver

/-- Checks the reads of an expression, all of them.  A read that fails is
recorded and does not end the pass. -/
def Expr.resolve (scope : ScopeId) (position : Nat) : Expr → Resolver → Bool × Resolver
  | .literal _, r => (true, r)
  | .variable name, r =>
    if r.scopes.contains scope name then (true, r) else (false, r.miss ⟨name, position⟩)
  | .binary _ left right, r =>
    let (leftValid, r) := left.resolve scope position r
    let (rightValid, r) := right.resolve scope position r
    (leftValid && rightValid, r)

/-- Checks an action; an assignment then declares its target, whatever the
verdict.  The target is declared behind the reads, so an assignment does not
make its own name known to its value. -/
def Action.resolve (scope : ScopeId) (position : Nat) (action : Action) (r : Resolver) :
    Bool × Resolver :=
  let (valid, r) := action.value.resolve scope position r
  match action with
  | .assign target _ => (valid, r.declare scope target)
  | .ret _ => (valid, r)

namespace Stmt

mutual

/-- Checks a statement whose first action has the given position.  A block gets
a scope of its own, named like the one that evaluation makes for it, and what
stands behind a return is checked as well. -/
def resolveAt (scope : ScopeId) (position : Nat) : Stmt → Resolver → Bool × Resolver
  | .action a, r => a.resolve scope position r
  | .block body, r => resolveAll r.scopes.size position true body (r.enter scope)

/-- Checks statements one after the other and combines the verdicts. -/
def resolveAll (scope : ScopeId) (position : Nat) (valid : Bool) :
    List Stmt → Resolver → Bool × Resolver
  | [], r => (valid, r)
  | s :: rest, r =>
    let (sValid, r) := s.resolveAt scope position r
    resolveAll scope (position + s.actionCount) (sValid && valid) rest r

end

/-- Checks a program in a scope, declaring assignment targets on the way. -/
def resolve (program : Stmt) (scope : ScopeId) (r : Resolver) : Bool × Resolver :=
  program.resolveAt scope 0 r

/-- Whether every read of a program resolves in a scope of a tree. -/
def resolves (program : Stmt) (scopes : Declarations) (scope : ScopeId) : Bool :=
  (program.resolve scope (.start scopes)).1

end Stmt

end StraightLine
