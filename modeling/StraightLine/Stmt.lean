import StraightLine.Expr

/-!
# Statements and programs

A program is a block of statements.  A statement is either an *action* — an assignment or a return —
or a nested block.  Actions are the statements that do something: they are what an evaluation
executes, what the flow graph has as vertices and what a diagnostic points at.

## Main definitions

* `Action`, `Stmt` — the two layers of statements.
* `Occurrence` — an action together with its position.
* `Stmt.actions` — the actions of a statement from left to right, through all nested blocks.

## Design notes

* **An action is named by its position**, its index in `Stmt.actions` of the whole program.  Two
  equal statements at different places are different actions, and a pass over the tree knows the
  position of the next statement by adding `Stmt.actionCount` of the one it leaves.
* Functions on statements come in pairs, one for a statement and one for a list of them, so that the
  recursion is structural; `Stmt.induction` is the matching induction principle.
-/

namespace StraightLine

/-- A statement without statements inside: an assignment, or a return. -/
inductive Action where
  | assign (target : String) (value : Expr)
  | ret (value : Expr)
  deriving DecidableEq, Inhabited

namespace Action

/-- The expression that an action evaluates. -/
def value : Action → Expr
  | .assign _ value => value
  | .ret value => value

/-- Whether an action ends the program. -/
def isReturn : Action → Bool
  | .assign .. => false
  | .ret _ => true

/-- The name that an action declares. -/
def target? : Action → Option String
  | .assign target _ => some target
  | .ret _ => none

/-- No name in the action is empty. -/
def Named (a : Action) : Prop := a.value.Named ∧ ∀ name ∈ a.target?, name ≠ ""

/-- Same shape and names, and literals that agree as numbers. -/
def agrees : Action → Action → Bool
  | .assign t e, .assign t' e' => t == t' && e.agrees e'
  | .ret e, .ret e' => e.agrees e'
  | _, _ => false

end Action

/-- An action at its position in a program.  Positions make equal actions at
different places different, which the vertices of a graph rely on. -/
structure Occurrence where
  position : Nat
  action : Action
  deriving DecidableEq, Inhabited

/-- A statement: an action, or a block with its own scope. -/
inductive Stmt where
  | action (a : Action)
  | block (body : List Stmt)
  deriving Inhabited

namespace Stmt

/-- An assignment statement. -/
abbrev assign (target : String) (value : Expr) : Stmt := .action (.assign target value)

/-- A return statement. -/
abbrev ret (value : Expr) : Stmt := .action (.ret value)

/-- Induction over a statement together with the statements of its blocks.
Definitions on programs come in pairs, for a statement and for a list of them,
and what is proved about one follows the pair. -/
theorem induction {motive : Stmt → Prop} {motives : List Stmt → Prop}
    (action : ∀ a, motive (.action a))
    (block : ∀ body, motives body → motive (.block body))
    (nil : motives [])
    (cons : ∀ s rest, motive s → motives rest → motives (s :: rest)) :
    (∀ s, motive s) ∧ (∀ body, motives body) :=
  ⟨fun s => Stmt.rec (motive_1 := motive) (motive_2 := motives) action block nil cons s,
    fun body => Stmt.rec_1 (motive_1 := motive) (motive_2 := motives) action block nil cons body⟩

mutual

/-- Whether two statements are equal. -/
def decideEq : (s t : Stmt) → Decidable (s = t)
  | .action a, .action b => decidable_of_iff (a = b) (by rw [Stmt.action.injEq])
  | .block xs, .block ys =>
    @decidable_of_iff _ (xs = ys) (by rw [Stmt.block.injEq]) (decideEqOf xs ys)
  | .action _, .block _ => isFalse Stmt.noConfusion
  | .block _, .action _ => isFalse Stmt.noConfusion

/-- Whether two lists of statements are equal. -/
def decideEqOf : (xs ys : List Stmt) → Decidable (xs = ys)
  | [], [] => isTrue rfl
  | x :: xs, y :: ys =>
    @decidable_of_iff _ (x = y ∧ xs = ys) (by rw [List.cons.injEq])
      (@instDecidableAnd _ _ (decideEq x y) (decideEqOf xs ys))
  | [], _ :: _ => isFalse (List.cons_ne_nil _ _).symm
  | _ :: _, [] => isFalse (List.cons_ne_nil _ _)

end

instance : DecidableEq Stmt := decideEq

mutual

/-- The actions of a statement in text order, through all nested blocks.  The
number of an action in this list is its position. -/
def actions : Stmt → List Action
  | .action a => [a]
  | .block body => actionsOf body

/-- The actions of a list of statements in text order. -/
def actionsOf : List Stmt → List Action
  | [] => []
  | s :: rest => s.actions ++ actionsOf rest

end

@[simp] theorem actions_action (a : Action) : (Stmt.action a).actions = [a] := by
  simp [actions]

@[simp] theorem actions_block (body : List Stmt) : (Stmt.block body).actions = actionsOf body := by
  simp [actions]

@[simp] theorem actionsOf_nil : actionsOf [] = [] := by simp [actionsOf]

@[simp] theorem actionsOf_cons (s : Stmt) (rest : List Stmt) :
    actionsOf (s :: rest) = s.actions ++ actionsOf rest := by simp [actionsOf]

theorem actionsOf_append (xs ys : List Stmt) :
    actionsOf (xs ++ ys) = actionsOf xs ++ actionsOf ys := by
  induction xs with
  | nil => simp
  | cons s rest ih => simp [ih]

mutual

/-- The number of actions in a statement. -/
def actionCount : Stmt → Nat
  | .action _ => 1
  | .block body => actionCountOf body

/-- The number of actions in a list of statements. -/
def actionCountOf : List Stmt → Nat
  | [] => 0
  | s :: rest => s.actionCount + actionCountOf rest

end

@[simp] theorem actionCount_action (a : Action) : (Stmt.action a).actionCount = 1 := by
  simp [actionCount]

@[simp] theorem actionCount_block (body : List Stmt) :
    (Stmt.block body).actionCount = actionCountOf body := by simp [actionCount]

@[simp] theorem actionCountOf_nil : actionCountOf [] = 0 := by simp [actionCountOf]

@[simp] theorem actionCountOf_cons (s : Stmt) (rest : List Stmt) :
    actionCountOf (s :: rest) = s.actionCount + actionCountOf rest := by simp [actionCountOf]

/-- Positions count actions. -/
theorem length_actions :
    (∀ s : Stmt, s.actions.length = s.actionCount) ∧
      (∀ body : List Stmt, (actionsOf body).length = actionCountOf body) :=
  Stmt.induction (by simp) (by simp) (by simp) (by simp_all)

mutual

/-- The number of blocks in a statement, itself included. -/
def blockCount : Stmt → Nat
  | .action _ => 0
  | .block body => 1 + blockCountOf body

/-- The number of blocks in a list of statements. -/
def blockCountOf : List Stmt → Nat
  | [] => 0
  | s :: rest => s.blockCount + blockCountOf rest

end

/-- A statement and all statements inside it, in text order, each with the
position of its first action; the statement itself comes first.  An empty block
has the position of the action that comes next. -/
def preorderAt (position : Nat) : Stmt → List (Nat × Stmt)
  | .action a => [(position, .action a)]
  | .block body => (position, .block body) :: preorderOfAt position body
where
  /-- The same for a list of statements. -/
  preorderOfAt (position : Nat) : List Stmt → List (Nat × Stmt)
    | [] => []
    | s :: rest => preorderAt position s ++ preorderOfAt (position + s.actionCount) rest

/-- Every statement of a program in text order, with the position of its first action. -/
def preorder (s : Stmt) : List (Nat × Stmt) := s.preorderAt 0

/-- No name in the statement is empty. -/
def Named (s : Stmt) : Prop := ∀ a ∈ s.actions, a.Named

mutual

/-- Same shape and names, and literals that agree as numbers. -/
def agrees : Stmt → Stmt → Bool
  | .action a, .action b => a.agrees b
  | .block xs, .block ys => agreesOf xs ys
  | _, _ => false

/-- Statement by statement agreement. -/
def agreesOf : List Stmt → List Stmt → Bool
  | [], [] => true
  | x :: xs, y :: ys => x.agrees y && agreesOf xs ys
  | _, _ => false

end

end Stmt

end StraightLine
