import StraightLine.Proofs.Denotation
import StraightLine.Proofs.FlooredDivision

/-!
# Integral programs compute exactly

A program whose literals are integers and which neither uses `/` nor `**` computes with machine
integers only.  It is compared with a run of the same program over the integers without bounds: both
have the same result, unless the exact run meets something that the machine refuses.

## Main definitions

* `Exact` — what an exact run comes to: everything on its way that a machine refuses, and a result.
* `Expr.exactly`, `Stmt.exactly` — the exact run.
* `Tells` — a result over values is the one of an exact run that meets nothing, or the first thing
  refused that it meets.

## Main statements

* `Operator.apply_tells` — one operation.
* `Stmt.denote_tells` — a statement over what it sees.
* `Stmt.evaluate_exactly` — a program in an environment whose visible values are integers.

## Design notes

* **The exact run does not stop at a result out of range** but goes on with it, so it knows nothing
  of machine integers except that it notes what does not fit.  It only stops where there is nothing
  to go on with, at a name without value and at a zero divisor.
* **What is refused is noted as the error that reports it.**  That the machine run ends with the
  first one noted says both that it fails with the right error and that nothing was skipped.
-/

namespace StraightLine

/-- What a run over the integers comes to: the errors for everything on its way
that a machine refuses, in order, and a result unless it got stuck.  There may
be errors and a result, as a number that is too large for the machine is still a
number. -/
structure Exact (α : Type) where
  refused : List EvalError
  result? : Option α

namespace Exact

variable {α β : Type}

/-- A run that meets nothing. -/
def pure (a : α) : Exact α := ⟨[], some a⟩

/-- A run that cannot go on. -/
def stuck (e : EvalError) : Exact α := ⟨[e], none⟩

/-- An integer result, noted if it does not fit a machine integer.  The run goes
on with the result, so later notes may be made by numbers that no machine would
have come to. -/
def noting (op : Operator) (n : Int) : Exact Int :=
  if -2 ^ 63 ≤ n ∧ n ≤ 2 ^ 63 - 1 then .pure n else ⟨[.overflow op], some n⟩

/-- The integer result of a division.  A zero divisor comes before the size of
the result, and there the exact run is stuck as well. -/
def dividing (op : Operator) (divisor n : Int) : Exact Int :=
  if divisor = 0 then .stuck (.divisionByZero op) else .noting op n

/-- A run followed by another that uses its result.  What the first has noted
stands before what the second notes. -/
def bind (x : Exact α) (next : α → Exact β) : Exact β :=
  match x.result? with
  | some a => ⟨x.refused ++ (next a).refused, (next a).result?⟩
  | none => ⟨x.refused, none⟩

/-- A run with its result changed. -/
def map (f : α → β) (x : Exact α) : Exact β := ⟨x.refused, x.result?.map f⟩

end Exact

/-! ## The exact run -/

/-- An operator over the integers; `/` and `**` have no result there.  Division
and remainder are rounded down, as `Int.fdiv` and `Int.fmod` are. -/
def Operator.exactly (op : Operator) (left right : Int) : Exact Int :=
  match op with
  | .plus => .noting op (left + right)
  | .minus => .noting op (left - right)
  | .times => .noting op (left * right)
  | .intDiv => .dividing op right (left.fdiv right)
  | .modulus => .dividing op right (left.fmod right)
  | .floatDiv | .exponentiation => ⟨[], none⟩

/-- The integer that every name stands for. -/
abbrev Integers := String → Option Int

/-- The integers in which a name stands for a new one. -/
def Integers.bind (ints : Integers) (name : String) (n : Int) : Integers :=
  fun other => if name = other then some n else ints other

/-- The value of an expression over the integers. -/
def Expr.exactly (ints : Integers) : Expr → Exact Int
  | .literal (.int n) => .pure n.toInt
  | .literal (.float _) => ⟨[], none⟩
  | .variable name =>
    match ints name with
    | some n => .pure n
    | none => .stuck (.undefinedVariable name)
  | .binary op left right =>
    (left.exactly ints).bind fun l => (right.exactly ints).bind fun r => op.exactly l r

/-- How a statement finished over the integers. -/
inductive Finish where
  | normal (value : Option Int)
  | returned (value : Int)

/-- The integer with which a statement finished. -/
def Finish.value? : Finish → Option Int
  | .normal value => value
  | .returned value => some value

/-- Runs an action over the integers. -/
def Action.exactly (ints : Integers) : Action → Exact (Finish × Integers)
  | .assign target value =>
    (value.exactly ints).map fun n => (.normal (some n), ints.bind target n)
  | .ret value => (value.exactly ints).map fun n => (.returned n, ints)

namespace Stmt

mutual

/-- Runs a statement over the integers.  What a block assigns is forgotten at
its end.  This is `denote` with other numbers: nothing in it depends on the size
of a machine integer except the notes. -/
def exactly : Stmt → Integers → Exact (Finish × Integers)
  | .action a, ints => a.exactly ints
  | .block body, ints => (exactlyAll none body ints).map fun result => (result.1, ints)

/-- Runs statements one after the other over the integers until one returns. -/
def exactlyAll (last : Option Int) : List Stmt → Integers → Exact (Finish × Integers)
  | [], ints => .pure (.normal last, ints)
  | s :: rest, ints =>
    (s.exactly ints).bind fun
      | (.returned n, ints) => .pure (.returned n, ints)
      | (.normal n, ints) => exactlyAll n rest ints

end

/-- The value of a program over the integers, if it has one. -/
def valueExactly (program : Stmt) (ints : Integers) : Exact (Option Int) :=
  (program.exactly ints).map fun result => result.1.value?

end Stmt

/-! ## Integral programs -/

/-- The operators of integer arithmetic. -/
def Operator.isIntegral : Operator → Bool
  | .plus | .minus | .times | .intDiv | .modulus => true
  | .floatDiv | .exponentiation => false

/-- All literals are integers and all operators are those of integer arithmetic. -/
def Expr.isIntegral : Expr → Bool
  | .literal value => value.kind == .int
  | .variable _ => true
  | .binary op left right => op.isIntegral && left.isIntegral && right.isIntegral

/-- All expressions of a program are integral. -/
def Stmt.isIntegral (s : Stmt) : Bool := s.actions.all (·.value.isIntegral)

/-- The integer that a value stands for, if it is of that kind. -/
def Value.integer? : Value → Option Int
  | .int n => some n.toInt
  | .float _ => none

/-- The integers that are seen from a scope. -/
def ScopeTree.integers (env : Environment) (scope : ScopeId) : Integers :=
  fun name => (env.lookup scope name).bind Value.integer?

/-- A value is the machine integer for an integer.  It implies that the integer
is in range, which is what is lost when a run goes on with a number that was
noted. -/
def Value.Is (value : Value) (n : Int) : Prop := ∃ word : Int64, value = .int word ∧ word.toInt = n

theorem Value.is_int (word : Int64) : (Value.int word).Is word.toInt := ⟨word, rfl, rfl⟩

/-- An optional value that stands for an optional integer is the machine integer for it. -/
theorem Value.exists_word {value : Option Value} {n : Option Int}
    (h : Option.Rel Value.Is value n) :
    ∃ word : Option Int64, value = word.map .int ∧ n = word.map Int64.toInt := by
  cases h with
  | none => exact ⟨none, rfl, rfl⟩
  | some hvalue =>
      obtain ⟨word, rfl, rfl⟩ := hvalue
      exact ⟨some word, rfl, rfl⟩

/-! ## What a result tells of an exact run -/

/-- A result is related to the one of an exact run that meets nothing refused,
or it is the first error that an exact run meets.

What comes behind the first error is left open, since the machine run has
stopped there while the exact one may have gone on.  The relation is closed
under `bind`, and that is the whole proof for expressions and statements once it
is known for operators. -/
inductive Tells {α β : Type} (R : α → β → Prop) : Except EvalError α → Exact β → Prop where
  | result {a : α} {b : β} : R a b → Tells R (.ok a) (.pure b)
  | error (e : EvalError) (later : List EvalError) (result? : Option β) :
      Tells R (.error e) ⟨e :: later, result?⟩

namespace Tells

variable {α β γ δ : Type} {R : α → β → Prop} {S : γ → δ → Prop}
  {x : Except EvalError α} {y : Exact β}

theorem bind (h : Tells R x y) {f : α → Except EvalError γ} {g : β → Exact δ}
    (hnext : ∀ a b, R a b → Tells S (f a) (g b)) : Tells S (x.bind f) (y.bind g) := by
  cases h with
  | result hab => exact hnext _ _ hab
  | error e later result? =>
      -- The exact run may go on, but what it meets then comes behind the error.
      cases result? with
      | none => exact .error e later none
      | some b => exact .error e (later ++ (g b).refused) (g b).result?

theorem map (h : Tells R x y) {f : α → γ} {g : β → δ} (hnext : ∀ a b, R a b → S (f a) (g b)) :
    Tells S (x.map f) (y.map g) := by
  cases h with
  | result hab => exact .result (hnext _ _ hab)
  | error e later result? => exact .error e later (result?.map g)

theorem exists_ok_iff (h : Tells R x y) : (∃ a, x = .ok a) ↔ y.refused = [] := by
  cases h <;> simp [Exact.pure]

theorem of_ok (h : Tells R x y) {a : α} (hx : x = .ok a) : ∃ b, y.result? = some b ∧ R a b := by
  subst hx
  cases h with
  | result hab => exact ⟨_, rfl, hab⟩

theorem error_iff (h : Tells R x y) {e : EvalError} : x = .error e ↔ y.refused.head? = some e := by
  cases h <;> simp [Exact.pure]

end Tells

/-! ## Operators and expressions -/

namespace Operator

/-- A machine integer is refused exactly where the exact integer is noted.  Both
sides of an operator on integers end in this test. -/
theorem fit_tells (op : Operator) (n : Int) :
    Tells Value.Is (op.fit (Word.ofInt? n)) (.noting op n) := by
  have hmin : Int64.minValue.toInt = -2 ^ 63 := Int64.toInt_minValue
  have hmax : Int64.maxValue.toInt = 2 ^ 63 - 1 := Int64.toInt_maxValue
  rw [Exact.noting, ← hmin, ← hmax]
  split
  · rename_i hfits
    have hword : Word.ofInt? n = some (Int64.ofInt n) := if_pos hfits
    rw [hword]
    exact .result ⟨_, rfl, Word.ofInt?_eq_some_iff.mp hword⟩
  · rename_i hlarge
    rw [Word.ofInt?, if_neg hlarge]
    exact .error _ [] (some n)

/-- A division has the same guard in both runs. -/
theorem divide_tells (op : Operator) {b : Int64} {n : Int} {result : Except EvalError Value}
    (hresult : b ≠ 0 → result = op.fit (Word.ofInt? n)) :
    Tells Value.Is (if b == 0 then .error (.divisionByZero op) else result)
      (.dividing op b.toInt n) := by
  rw [Exact.dividing]
  by_cases hzero : b = 0
  · subst hzero
    exact .error _ [] none
  · rw [if_neg (by simpa using hzero), if_neg (Word.toInt_eq_zero_iff.not.mpr hzero), hresult hzero]
    exact fit_tells op n

/-- **An operator on machine integers is exact** or refuses what the exact run
notes.  This is the only place where machine arithmetic is looked at. -/
theorem apply_tells {op : Operator} (hop : op.isIntegral = true) {left right : Value} {l r : Int}
    (hleft : left.Is l) (hright : right.Is r) :
    Tells Value.Is (op.apply left right) (op.exactly l r) := by
  obtain ⟨a, rfl, rfl⟩ := hleft
  obtain ⟨b, rfl, rfl⟩ := hright
  cases op with
  | plus => exact fit_tells _ _
  | minus => exact fit_tells _ _
  | times => exact fit_tells _ _
  | intDiv => exact divide_tells _ fun hb => by rw [Word.floorDiv?_eq hb]
  | modulus =>
      -- The remainder always fits: the machine does not ask.
      refine divide_tells _ fun _ => ?_
      rw [Word.ofInt?_eq_some_iff.mpr (Word.toInt_floorMod a b)]
      rfl
  | floatDiv => cases hop
  | exponentiation => cases hop

end Operator

/-- Every visible value is the machine integer that stands for the same name in
the exact run.  It is the invariant of a run as long as nothing is refused; a
name without value has none on either side. -/
def Shows (view : View) (ints : Integers) : Prop :=
  ∀ name, Option.Rel Value.Is (view name) (ints name)

theorem Shows.bind {view : View} {ints : Integers} (h : Shows view ints) {value : Value} {n : Int}
    (hvalue : value.Is n) (target : String) :
    Shows (view.bind target value) (ints.bind target n) := by
  intro name
  rw [View.bind, Integers.bind]
  split
  · exact .some hvalue
  · exact h name

/-- An environment whose visible values are integers shows the integers that are seen in it. -/
theorem ScopeTree.shows_integers {env : Environment} {scope : ScopeId}
    (hints : ∀ name value, env.lookup scope name = some value → value.kind = .int) :
    Shows (env.lookup scope) (env.integers scope) := by
  intro name
  rw [integers]
  cases hlookup : env.lookup scope name with
  | none => exact .none
  | some value =>
      cases value with
      | int word => exact .some (Value.is_int word)
      | float x => cases hints name _ hlookup

/-- An expression is exact or refuses the first thing that the exact run meets in it. -/
theorem Expr.denote_tells {view : View} {ints : Integers} (hview : Shows view ints) {e : Expr}
    (he : e.isIntegral = true) : Tells Value.Is (e.denote view) (e.exactly ints) := by
  induction e with
  | literal v =>
      cases v with
      | int word => exact .result (Value.is_int word)
      | float x => cases he
  | «variable» name =>
      rw [denote, exactly]
      have hname := hview name
      generalize view name = value? at hname
      generalize ints name = n? at hname
      cases hname with
      | some hvalue => exact .result hvalue
      | none => exact .error _ [] none
  | binary op left right ihl ihr =>
      rw [isIntegral, Bool.and_eq_true, Bool.and_eq_true] at he
      rw [denote, exactly]
      exact (ihl he.1.2).bind fun l _ hl => (ihr he.2).bind fun r _ hr =>
        Operator.apply_tells he.1.1 hl hr

/-! ## Statements -/

/-- Both runs finish the same way. -/
inductive Finish.Of : Completion → Finish → Prop where
  | normal {value : Option Value} {n : Option Int} :
      Option.Rel Value.Is value n → Of (.normal value) (.normal n)
  | returned {value : Value} {n : Int} : value.Is n → Of (.returned value) (.returned n)

theorem Finish.Of.value? {completion : Completion} {finish : Finish}
    (h : Finish.Of completion finish) : Option.Rel Value.Is completion.value? finish.value? := by
  cases h with
  | normal h => exact h
  | returned h => exact .some h

/-- Both runs finish the same way, and what they leave stands for the same integers. -/
def Ends (result : Completion × View) (exact : Finish × Integers) : Prop :=
  Finish.Of result.1 exact.1 ∧ Shows result.2 exact.2

theorem Action.denote_tells {view : View} {ints : Integers} (hview : Shows view ints) {a : Action}
    (ha : a.value.isIntegral = true) : Tells Ends (a.denote view) (a.exactly ints) := by
  cases a with
  | assign target value =>
      exact (value.denote_tells hview ha).map fun v n hv =>
        ⟨.normal (.some hv), hview.bind hv target⟩
  | ret value => exact (value.denote_tells hview ha).map fun v n hv => ⟨.returned hv, hview⟩

namespace Stmt

/-- **A statement is exact** or refuses the first thing that the exact run meets
in it.  The induction is over the meaning of a program on what it sees, so
scopes play no part in it. -/
theorem denote_tells :
    (∀ (s : Stmt) (view : View) (ints : Integers), s.isIntegral = true → Shows view ints →
        Tells Ends (s.denote view) (s.exactly ints)) ∧
      ∀ (body : List Stmt) (last : Option Value) (n : Option Int) (view : View) (ints : Integers),
        (actionsOf body).all (·.value.isIntegral) = true → Option.Rel Value.Is last n →
        Shows view ints → Tells Ends (denoteAll last body view) (exactlyAll n body ints) := by
  refine Stmt.induction ?action ?block ?nil ?cons
  case action =>
    intro a view ints ha hview
    rw [denote, exactly]
    exact Action.denote_tells hview (by simpa [isIntegral] using ha)
  case block =>
    intro body ih view ints hbody hview
    rw [isIntegral, actions_block] at hbody
    rw [denote, exactly]
    -- Only how the block finished is kept; outside it both sides stand as they were.
    exact (ih none none view ints hbody .none hview).map fun result exact h => ⟨h.1, hview⟩
  case nil =>
    intro last n view ints _ hlast hview
    rw [denoteAll, exactlyAll]
    exact .result ⟨.normal hlast, hview⟩
  case cons =>
    intro s rest ihs ihrest last n view ints hall _ hview
    rw [actionsOf_cons, List.all_append, Bool.and_eq_true] at hall
    rw [denoteAll, exactlyAll]
    refine (ihs view ints hall.1 hview).bind ?_
    rintro ⟨completion, mid⟩ ⟨finish, midInts⟩ ⟨hfinish, hmid⟩
    cases hfinish with
    | normal hvalue => exact ihrest _ _ mid midInts hall.2 hvalue hmid
    | returned hvalue => exact .result ⟨.returned hvalue, hmid⟩

/-- **An integral program computes exact integer arithmetic** with division and remainder rounded
down, in every environment whose visible values are integers.  It has a result if and only if the
run over the integers meets no name without value, no zero divisor and no result out of range, and
then it is the result of that run.  Otherwise its error is the one for the first of these that the
run meets. -/
theorem evaluate_exactly {env : Environment} {scope : ScopeId} (program : Stmt) (grown : env.Grown)
    (hscope : scope < env.size) (hprogram : program.isIntegral = true)
    (hints : ∀ name value, env.lookup scope name = some value → value.kind = .int) :
    let exact := program.valueExactly (env.integers scope)
    ((∃ value, (program.evaluate env scope).1 = .ok value) ↔ exact.refused = []) ∧
      (∀ value, (program.evaluate env scope).1 = .ok value →
        ∃ word : Option Int64, value = word.map .int ∧
          exact.result? = some (word.map Int64.toInt)) ∧
      ∀ e, (program.evaluate env scope).1 = .error e ↔ exact.refused.head? = some e := by
  intro exact
  have htells : Tells (Option.Rel Value.Is) (program.evaluate env scope).1 exact := by
    rw [evaluate_eq_denote program grown hscope]
    exact (denote_tells.1 program _ _ hprogram (ScopeTree.shows_integers hints)).map
      fun _ _ hends => hends.1.value?
  refine ⟨htells.exists_ok_iff, fun value hvalue => ?_, fun e => htells.error_iff⟩
  obtain ⟨n, hresult, hrel⟩ := htells.of_ok hvalue
  obtain ⟨word, hword, rfl⟩ := Value.exists_word hrel
  exact ⟨word, hword, hresult⟩

/-- For the least machine integer, quotient times divisor is out of range although adding the
remainder brings it back: the exact run notes the product and goes on to zero, the program fails at
the product. -/
theorem evaluate_exactly_of_least :
    let env : Environment := ScopeTree.withRoot.declare 0 "x" (.int Int64.minValue)
    let program : Stmt := .block [
      .assign "q" (.binary .intDiv (.variable "x") (.literal (.int 3))),
      .block [.assign "x" (.literal (.int 5))],
      .assign "p" (.binary .times (.variable "q") (.literal (.int 3))),
      .assign "p" (.binary .plus (.variable "p")
        (.binary .modulus (.variable "x") (.literal (.int 3)))),
      .ret (.binary .minus (.variable "p") (.variable "x"))]
    env.Grown ∧ 0 < env.size ∧ program.isIntegral = true ∧
      (∀ name value, env.lookup 0 name = some value → value.kind = .int) ∧
      (program.valueExactly (env.integers 0)).refused = [.overflow .times] ∧
      (program.valueExactly (env.integers 0)).result? = some (some 0) ∧
      (program.evaluate env 0).1 = .error (.overflow .times) := by
  intro env program
  have hroot : (ScopeTree.withRoot : Environment).Grown := .root .empty
  have grown : env.Grown := .declare "x" _ hroot (by decide)
  have hscope : 0 < env.size := by decide
  have hprogram : program.isIntegral = true := by decide
  have hints : ∀ name value, env.lookup 0 name = some value → value.kind = .int := by
    intro name value h
    have hframes : env.frames 0 = [Dictionary.empty.insert "x" (.int Int64.minValue)] := rfl
    rw [ScopeTree.lookup_eq_findSome?, hframes, List.findSome?_singleton,
      Dictionary.get?_insert] at h
    split at h <;> cases h
    rfl
  have hrefused : (program.valueExactly (env.integers 0)).refused = [.overflow .times] := by decide
  obtain ⟨-, -, herror⟩ := evaluate_exactly program grown hscope hprogram hints
  refine ⟨grown, hscope, hprogram, hints, hrefused, by decide, (herror _).mpr ?_⟩
  rw [hrefused]
  rfl

end Stmt

end StraightLine
