import StraightLine.Proofs.Ancestry
import StraightLine.Proofs.Execution
import StraightLine.Proofs.Resolution

/-!
# Passes that check what they index

An operation on a scope tree leaves a scope that does not exist alone, and a chain of parents is
followed for a fixed number of steps.  Neither ever matters to a pass that is started in a scope of
a grown tree.  To say so, this module has both passes a second time, in a form that gives up as soon
as it indexes a scope that does not exist or a chain does not end.

## Main definitions

* `ScopeTree.require`, `ScopeTree.lookup?` — indexing a scope and looking a name up, with a failure.
* `Stmt.run?`, `Stmt.execute?` — evaluation that gives up.
* `Stmt.resolveAt?`, `Stmt.resolve?` — resolution that gives up.

## Main statements

* `Stmt.run?_eq`, `Stmt.resolveAt?_eq` — the passes never give up, and leave grown trees.
* `ScopeTree.wellFormed_throughout` — every grown tree is well formed, and the passes keep it so.

## Design notes

* **Giving up is no outcome of a program.**  The passes return an option of what they returned
  before; an evaluation error is inside that option.
* A look-up requires the whole chain, although it may find its name before the end.
-/

namespace StraightLine

/-! ## Indexing -/

namespace ScopeTree

variable {α : Type}

/-- Gives up if a scope does not exist.  `declare` and `enter` leave such a
scope alone without a word, so a pass that indexes a wrong scope would not be
noticed in what it returns; the watched passes ask first. -/
def require (tree : ScopeTree α) (id : ScopeId) : Option Unit := (tree.get? id).map fun _ => ()

/-- At most `fuel` scopes of the chain of parents that starts at a scope, given
up if one of them does not exist or the chain goes on.  In contrast to `chain`,
running out of fuel is told apart from having come to the end. -/
def chain? (tree : ScopeTree α) : Nat → ScopeId → Option (List ScopeId)
  | 0, _ => none
  | fuel + 1, id =>
    match tree.get? id with
    | none => none
    | some scope =>
      match scope.parent with
      | none => some [id]
      | some parent => (tree.chain? fuel parent).map (id :: ·)

/-- The binding of a name in the nearest scope of the chain that has one. -/
def lookup? (tree : ScopeTree α) (id : ScopeId) (name : String) : Option (Option α) :=
  (tree.chain? (id + 1) id).map fun ancestors => ancestors.findSome? (tree.local? · name)

theorem require_eq_some {tree : ScopeTree α} {id : ScopeId} (h : id < tree.size) :
    tree.require id = some () := by
  obtain ⟨scope, hget⟩ := exists_get? h
  rw [require, hget]
  rfl

/-- A chain of older and older scopes exists up to its end.  By induction on the
fuel: a parent is older than its child, so it exists if the child does, and one
step less is enough for it. -/
theorem Ranked.chain?_eq {tree : ScopeTree α} (ranked : tree.Ranked) :
    ∀ (fuel : Nat) (id : ScopeId), id < tree.size → id < fuel →
      tree.chain? fuel id = some (tree.chain fuel id) := by
  intro fuel
  induction fuel with
  | zero =>
      intro id _ hfuel
      cases hfuel
  | succ fuel ih =>
      intro id h hfuel
      obtain ⟨scope, hget⟩ := exists_get? h
      rw [chain?, chain_succ, hget]
      cases hparent : scope.parent with
      | none => simp only [hparent]
      | some parent =>
          have hlt := ranked id scope parent hget hparent
          simp only [hparent]
          rw [ih parent (Nat.lt_trans hlt h) (Nat.lt_of_lt_of_le hlt (Nat.le_of_lt_succ hfuel))]
          rfl

theorem Ranked.lookup?_eq {tree : ScopeTree α} (ranked : tree.Ranked) {id : ScopeId}
    (h : id < tree.size) (name : String) :
    tree.lookup? id name = some (tree.lookup id name) := by
  rw [lookup?, ranked.chain?_eq (id + 1) id h (Nat.lt_succ_self id)]
  rfl

end ScopeTree

/-! ## Evaluation -/

/-- The value of an expression in a scope. -/
def Expr.evaluate? (env : Environment) (scope : ScopeId) :
    Expr → Option (Except EvalError Value)
  | .literal value => some (.ok value)
  | .variable name =>
    (env.lookup? scope name).map fun
      | some value => .ok value
      | none => .error (.undefinedVariable name)
  | .binary op left right =>
    (left.evaluate? env scope).bind fun
      | .error e => some (.error e)
      | .ok l =>
        (right.evaluate? env scope).map fun
          | .error e => .error e
          | .ok r => op.apply l r

/-- Runs one action in a scope.  The scope is required for the chain of every
name that is read, and once more before a name is bound in it. -/
def Action.run? (scope : ScopeId) (position : Nat) (action : Action) (run : Run) : Option Ending :=
  let run := run.begin position action
  (action.value.evaluate? run.scopes scope).bind fun
    | .error e => some (.error e, run)
    | .ok value =>
      match action with
      | .assign target _ =>
        (run.scopes.require scope).map fun _ =>
          (.ok (.normal (some value)), run.declare scope target value)
      | .ret _ => some (.ok (.returned value), run)

namespace Stmt

mutual

/-- Runs a statement whose first action has the given position. -/
def run? (scope : ScopeId) (position : Nat) : Stmt → Run → Option Ending
  | .action a, state => a.run? scope position state
  | .block body, state =>
    (state.scopes.require scope).bind fun _ =>
      runAll? state.scopes.size position none body (state.enter scope)

/-- Runs statements one after the other until one returns or fails. -/
def runAll? (scope : ScopeId) (position : Nat) (last : Option Value) :
    List Stmt → Run → Option Ending
  | [], state => some (.ok (.normal last), state)
  | s :: rest, state =>
    (s.run? scope position state).bind fun
      | (.ok (.normal value), next) => runAll? scope (position + s.actionCount) value rest next
      | (.ok (.returned value), next) => some (.ok (.returned value), next)
      | (.error e, next) => some (.error e, next)

end

/-- Runs a program in a scope of an environment.  The outer `none` is a failed
access and nothing else; what the program comes to is inside. -/
def execute? (program : Stmt) (env : Environment) (scope : ScopeId) : Option Ending :=
  program.run? scope 0 (.start env)

end Stmt

open ScopeTree

theorem Expr.evaluate?_eq {env : Environment} {scope : ScopeId} (ranked : env.Ranked)
    (h : scope < env.size) (e : Expr) :
    e.evaluate? env scope = some (e.evaluate env scope) := by
  induction e with
  | literal value => rfl
  | «variable» name =>
      rw [evaluate?, ranked.lookup?_eq h, evaluate]
      cases env.lookup scope name <;> rfl
  | binary op left right ihl ihr =>
      rw [evaluate?, ihl, ihr, evaluate]
      cases left.evaluate env scope with
      | error e => rfl
      | ok l => cases right.evaluate env scope <;> rfl

/-- An action never gives up, and leaves a grown tree of the same size. -/
theorem Action.run?_eq {scope : ScopeId} {state : Run} (grown : state.scopes.Grown)
    (h : scope < state.scopes.size) (position : Nat) (a : Action) :
    a.run? scope position state = some (a.run scope position state) ∧
      (a.run scope position state).2.scopes.Grown := by
  have hvalue := Expr.evaluate?_eq grown.ranked h a.value
  rcases a.run_cases scope position state with
    ⟨e, heval, hrun⟩ | ⟨target, expr, value, rfl, heval, hrun⟩ | ⟨expr, value, rfl, heval, hrun⟩
  · rw [heval] at hvalue
    rw [hrun]
    exact ⟨by simp [Action.run?, Run.begin, hvalue], grown⟩
  · have hvalue : expr.evaluate? state.scopes scope = some (.ok value) := heval ▸ hvalue
    rw [hrun]
    refine ⟨?_, .declare target value grown h⟩
    simp [Action.run?, Action.value, Run.begin, hvalue, require_eq_some h]
  · have hvalue : expr.evaluate? state.scopes scope = some (.ok value) := heval ▸ hvalue
    rw [hrun]
    exact ⟨by simp [Action.run?, Action.value, Run.begin, hvalue], grown⟩

/-- **Evaluation never gives up,** and whatever its outcome it leaves a grown
tree that is not smaller.

The equation alone is not inductive.  A list goes on in the tree that its first
statement has left, so that tree has to be grown again, and it has to be as
large as before, or the scope of the list might not exist in it. -/
theorem Stmt.run?_eq :
    (∀ (s : Stmt) (scope : ScopeId) (position : Nat) (state : Run), state.scopes.Grown →
        scope < state.scopes.size →
        s.run? scope position state = some (s.run scope position state) ∧
          (s.run scope position state).2.scopes.Grown ∧
          state.scopes.size ≤ (s.run scope position state).2.scopes.size) ∧
      ∀ (body : List Stmt) (scope : ScopeId) (position : Nat) (last : Option Value) (state : Run),
        state.scopes.Grown → scope < state.scopes.size →
        runAll? scope position last body state = some (runAll scope position last body state) ∧
          (runAll scope position last body state).2.scopes.Grown ∧
          state.scopes.size ≤ (runAll scope position last body state).2.scopes.size := by
  refine Stmt.induction ?action ?block ?nil ?cons
  case action =>
    intro a scope position state grown h
    obtain ⟨hrun, hgrown⟩ := a.run?_eq grown h position
    rw [run?, run]
    exact ⟨hrun, hgrown, Nat.le_of_eq (a.size_run scope position state).symm⟩
  case block =>
    intro body ih scope position state grown h
    have hlt : state.scopes.size < (state.enter scope).scopes.size :=
      Nat.lt_of_succ_le (Nat.le_of_eq (size_create ..).symm)
    obtain ⟨hrun, hgrown, hle⟩ :=
      ih state.scopes.size position none (state.enter scope) (.child grown h) hlt
    rw [run?, run, require_eq_some h]
    exact ⟨hrun, hgrown, Nat.le_trans (Nat.le_of_lt hlt) hle⟩
  case nil =>
    intro scope position last state grown _
    rw [runAll?, runAll]
    exact ⟨rfl, grown, Nat.le_refl _⟩
  case cons =>
    intro s rest ihs ihrest scope position last state grown h
    obtain ⟨hrun, hgrown, hle⟩ := ihs scope position state grown h
    rw [runAll?, runAll, hrun]
    rcases hs : s.run scope position state with ⟨e | (value | value), next⟩ <;>
      rw [hs] at hgrown hle
    · exact ⟨rfl, hgrown, hle⟩
    · obtain ⟨hrest, hgrown', hle'⟩ :=
        ihrest scope (position + s.actionCount) value next hgrown (Nat.lt_of_lt_of_le h hle)
      exact ⟨hrest, hgrown', Nat.le_trans hle hle'⟩
    · exact ⟨rfl, hgrown, hle⟩

/-! ## Resolution -/

/-- Checks the reads of an expression, all of them. -/
def Expr.resolve? (scope : ScopeId) (position : Nat) : Expr → Resolver → Option (Bool × Resolver)
  | .literal _, r => some (true, r)
  | .variable name, r =>
    (r.scopes.lookup? scope name).map fun found =>
      if found.isSome then (true, r) else (false, r.miss ⟨name, position⟩)
  | .binary _ left right, r =>
    (left.resolve? scope position r).bind fun (leftValid, r) =>
      (right.resolve? scope position r).map fun (rightValid, r) => (leftValid && rightValid, r)

/-- Checks an action; an assignment then declares its target, whatever the verdict. -/
def Action.resolve? (scope : ScopeId) (position : Nat) (action : Action) (r : Resolver) :
    Option (Bool × Resolver) :=
  (action.value.resolve? scope position r).bind fun (valid, r) =>
    match action with
    | .assign target _ => (r.scopes.require scope).map fun _ => (valid, r.declare scope target)
    | .ret _ => some (valid, r)

namespace Stmt

mutual

/-- Checks a statement whose first action has the given position. -/
def resolveAt? (scope : ScopeId) (position : Nat) : Stmt → Resolver → Option (Bool × Resolver)
  | .action a, r => a.resolve? scope position r
  | .block body, r =>
    (r.scopes.require scope).bind fun _ =>
      resolveAll? r.scopes.size position true body (r.enter scope)

/-- Checks statements one after the other and combines the verdicts. -/
def resolveAll? (scope : ScopeId) (position : Nat) (valid : Bool) :
    List Stmt → Resolver → Option (Bool × Resolver)
  | [], r => some (valid, r)
  | s :: rest, r =>
    (s.resolveAt? scope position r).bind fun (sValid, r) =>
      resolveAll? scope (position + s.actionCount) (sValid && valid) rest r

end

/-- Checks a program in a scope, declaring assignment targets on the way. -/
def resolve? (program : Stmt) (scope : ScopeId) (r : Resolver) : Option (Bool × Resolver) :=
  program.resolveAt? scope 0 r

end Stmt

theorem Expr.resolve?_eq {scope : ScopeId} (position : Nat) (e : Expr) :
    ∀ r : Resolver, r.scopes.Ranked → scope < r.scopes.size →
      e.resolve? scope position r = some (e.resolve scope position r) := by
  induction e with
  | literal value => intro r _ _; rfl
  | «variable» name =>
      intro r ranked h
      rw [resolve?, ranked.lookup?_eq h, resolve, contains]
      rfl
  | binary op left right ihl ihr =>
      intro r ranked h
      have hscopes := (left.resolve_spec scope position r).1
      have hright := ihr (left.resolve scope position r).2
      rw [hscopes] at hright
      rw [resolve?, ihl r ranked h, resolve]
      show ((right.resolve? scope position (left.resolve scope position r).2).map _) = _
      rw [hright ranked h]
      rfl

/-- An action never gives up, and leaves a grown tree of the same size. -/
theorem Action.resolve?_eq {scope : ScopeId} {r : Resolver} (grown : r.scopes.Grown)
    (h : scope < r.scopes.size) (position : Nat) (a : Action) :
    a.resolve? scope position r = some (a.resolve scope position r) ∧
      (a.resolve scope position r).2.scopes.Grown := by
  have hscopes := (a.value.resolve_spec scope position r).1
  rw [Action.resolve?, Expr.resolve?_eq position a.value r grown.ranked h, Option.bind_some,
    (a.resolve_spec scope position r).1]
  cases a with
  | assign target value =>
      refine ⟨?_, .declare target () grown h⟩
      simp only [Action.value] at hscopes
      simp [Action.resolve, Action.value, hscopes, require_eq_some h]
  | ret value => exact ⟨rfl, grown⟩

/-- **Resolution never gives up,** and leaves a grown tree that is not smaller.
The two additions are carried for the same reason as in `Stmt.run?_eq`; here no
outcome stops the pass. -/
theorem Stmt.resolveAt?_eq :
    (∀ (s : Stmt) (scope : ScopeId) (position : Nat) (r : Resolver), r.scopes.Grown →
        scope < r.scopes.size →
        s.resolveAt? scope position r = some (s.resolveAt scope position r) ∧
          (s.resolveAt scope position r).2.scopes.Grown ∧
          r.scopes.size ≤ (s.resolveAt scope position r).2.scopes.size) ∧
      ∀ (body : List Stmt) (scope : ScopeId) (position : Nat) (valid : Bool) (r : Resolver),
        r.scopes.Grown → scope < r.scopes.size →
        resolveAll? scope position valid body r = some (resolveAll scope position valid body r) ∧
          (resolveAll scope position valid body r).2.scopes.Grown ∧
          r.scopes.size ≤ (resolveAll scope position valid body r).2.scopes.size := by
  refine Stmt.induction ?action ?block ?nil ?cons
  case action =>
    intro a scope position r grown h
    obtain ⟨hresolve, hgrown⟩ := a.resolve?_eq grown h position
    rw [resolveAt?, resolveAt]
    exact ⟨hresolve, hgrown, Nat.le_of_eq (size_resolve_action scope position a r).symm⟩
  case block =>
    intro body ih scope position r grown h
    have hlt := r.lt_size_enter scope
    obtain ⟨hresolve, hgrown, hle⟩ :=
      ih r.scopes.size position true (r.enter scope) (.child grown h) hlt
    rw [resolveAt?, resolveAt, require_eq_some h]
    exact ⟨hresolve, hgrown, Nat.le_trans (Nat.le_of_lt hlt) hle⟩
  case nil =>
    intro scope position valid r grown _
    rw [resolveAll?, resolveAll]
    exact ⟨rfl, grown, Nat.le_refl _⟩
  case cons =>
    intro s rest ihs ihrest scope position valid r grown h
    obtain ⟨hresolve, hgrown, hle⟩ := ihs scope position r grown h
    obtain ⟨hrest, hgrown', hle'⟩ := ihrest scope (position + s.actionCount)
      ((s.resolveAt scope position r).1 && valid) _ hgrown (Nat.lt_of_lt_of_le h hle)
    rw [resolveAll?, resolveAll, hresolve]
    exact ⟨hrest, hgrown', Nat.le_trans hle hle'⟩

/-! ## Trees and passes -/

/-- **Scope trees are well formed throughout.**  A tree that comes from creations, each without
parent or below an existing scope, and declarations is well formed.  Resolution and evaluation,
started in a scope of such a tree, never index a scope that does not exist, and whatever their
outcome the tree that they leave is such a tree again. -/
theorem ScopeTree.wellFormed_throughout :
    (∀ {α : Type} {tree : ScopeTree α}, tree.Grown → tree.WellFormed) ∧
      (∀ (program : Stmt) {decls : Declarations} {scope : ScopeId}, decls.Grown →
        scope < decls.size →
        program.resolve? scope (.start decls) = some (program.resolve scope (.start decls)) ∧
          (program.resolve scope (.start decls)).2.scopes.Grown ∧
          (program.resolve scope (.start decls)).2.scopes.WellFormed) ∧
      ∀ (program : Stmt) {env : Environment} {scope : ScopeId}, env.Grown → scope < env.size →
        program.execute? env scope = some (program.execute env scope) ∧
          (program.evaluate env scope).2.Grown ∧ (program.evaluate env scope).2.WellFormed := by
  refine ⟨fun grown => grown.wellFormed, fun program decls scope grown h => ?_,
    fun program env scope grown h => ?_⟩
  · obtain ⟨hresolve, hgrown, -⟩ := Stmt.resolveAt?_eq.1 program scope 0 (.start decls) grown h
    exact ⟨hresolve, hgrown, hgrown.wellFormed⟩
  · obtain ⟨hrun, hgrown, -⟩ := Stmt.run?_eq.1 program scope 0 (.start env) grown h
    exact ⟨hrun, hgrown, hgrown.wellFormed⟩

/-- Two scopes without parent, and a run that fails in an inner block: it has made two scopes. -/
theorem ScopeTree.wellFormed_throughout_of_two_roots :
    let env : Environment :=
      ((ScopeTree.withRoot.create (some 0)).create none).declare 1 "x" (.int 2)
    let program : Stmt := .block [
      .assign "a" (.variable "x"),
      .block [.assign "b" (.binary .modulus (.variable "a") (.literal (.int 0)))],
      .block []]
    env.Grown ∧ 1 < env.size ∧ env.children 0 = [1] ∧ env.root? = some 0 ∧
      ¬ env.Below 2 0 ∧ env.isDescendantOf 1 0 = true ∧
      (program.evaluate env 1).1 = .error (.divisionByZero .modulus) ∧
      program.execute? env 1 = some (program.execute env 1) ∧
      (program.evaluate env 1).2.size = 5 ∧ (program.evaluate env 1).2.children 3 = [4] := by
  intro env program
  have hroot : (ScopeTree.withRoot : Environment).Grown := .root .empty
  have hchild : (ScopeTree.withRoot.create (some 0) : Environment).Grown :=
    .child hroot (by decide)
  have grown : env.Grown := .declare "x" (.int 2) hchild.root (by decide)
  have hscope : 1 < env.size := by decide
  obtain ⟨htrees, -, hruns⟩ := ScopeTree.wellFormed_throughout
  have formed : env.WellFormed := htrees grown
  obtain ⟨hrun, -, formed'⟩ := hruns program grown hscope
  refine ⟨grown, hscope, (formed.children_eq 0).trans (by decide), formed.root?_eq, by decide,
    (formed.isDescendantOf_iff 1 hscope 0).mpr (.single (by decide)), by decide, hrun, by decide,
    (formed'.children_eq 3).trans (by decide)⟩

end StraightLine
