import StraightLine.Proofs.Denotation
import StraightLine.Proofs.Visibility

/-!
# What a program depends on

Two runs of one program in two environments can only differ if a name that the program reads from
outside has different values there.  These names are the ones that resolution reports when it is run
in an empty tree: what a program assigns itself hides whatever stands outside.

## Main definitions

* `Alike` — the same error, or the same completion with views that agree on some names.

## Main statements

* `Expr.denote_congr` — an expression depends on the names that it reads.
* `Stmt.denote_alike` — a statement depends on the reads that see no declaration.
* `Stmt.evaluate_congr_of_unresolved` — the same for programs in any two environments.

## Design notes

* **Agreement grows while the runs go on.**  An assignment gives its target the same value in both
  runs, so from then on they agree on one name more; that is why the names they agree on are a
  parameter of the induction, next to the names that resolution can see.
* **A block gives nothing back.**  Both runs continue behind it with the views at its entry, so of a
  list of statements only the completions are compared.
-/

namespace StraightLine

/-- Two results that cannot be told apart by completion or error, nor by the
given names.  The names are those on whose values the runs agree; of all others
the views may say different things. -/
inductive Alike (names : String → Prop) :
    Except EvalError (Completion × View) → Except EvalError (Completion × View) → Prop where
  | error (e : EvalError) : Alike names (.error e) (.error e)
  | ok (completion : Completion) {view view' : View} :
      (∀ name, names name → view name = view' name) →
      Alike names (.ok (completion, view)) (.ok (completion, view'))

theorem Alike.map_fst {names : String → Prop} {x y : Except EvalError (Completion × View)}
    (h : Alike names x y) : x.map Prod.fst = y.map Prod.fst := by
  cases h <;> rfl

/-- An expression depends on the names that it reads.  The errors are the same
as well, since both evaluations meet the same operands in the same order. -/
theorem Expr.denote_congr {view view' : View} {e : Expr}
    (h : ∀ name ∈ e.reads, view name = view' name) : e.denote view = e.denote view' := by
  induction e with
  | literal v => rfl
  | «variable» name => rw [denote, denote, h name (List.mem_singleton_self name)]
  | binary op left right ihl ihr =>
      rw [reads_binary] at h
      rw [denote, denote, ihl fun name hname => h name (List.mem_append_left _ hname),
        ihr fun name hname => h name (List.mem_append_right _ hname)]

namespace Stmt

/-- The reads of an action are known if those are that see no declaration.  The
others are visible, and what is visible is known by assumption. -/
theorem known_of_missedAt_action {visible : String → Bool} {known : String → Prop} {position : Nat}
    {a : Action} (hvisible : ∀ name, visible name = true → known name)
    (hmissed : ∀ read ∈ (Stmt.action a).missedAt visible position, known read.name) :
    ∀ name ∈ a.value.reads, known name := by
  intro name hname
  cases hsees : visible name with
  | true => exact hvisible name hsees
  | false =>
      refine hmissed ⟨name, position⟩ ?_
      rw [missedAt_action]
      exact List.mem_map.mpr ⟨name, List.mem_filter.mpr ⟨hname, by rw [hsees]; rfl⟩, rfl⟩

/-- **A statement depends on the reads that see no declaration.** If two views
agree on all names that resolution can see and on all that it misses in the
statement, both runs have the same completion or error, and afterwards they also
agree on what the statement assigns.

The names in `known` may be more than those in `visible`: resolution starts in
an empty tree and sees nothing from outside, while the runs agree there on
whatever it misses. -/
theorem denote_alike :
    (∀ (s : Stmt) (visible : String → Bool) (position : Nat) (known : String → Prop)
        (view view' : View), (∀ name, visible name = true → known name) →
        (∀ read ∈ s.missedAt visible position, known read.name) →
        (∀ name, known name → view name = view' name) →
        Alike (fun name => known name ∨ s.assigns name = true) (s.denote view) (s.denote view')) ∧
      ∀ (rest done : List Stmt) (visible : String → Bool) (position : Nat) (known : String → Prop)
        (last : Option Value) (view view' : View),
        (∀ name, (visible name || done.any (assigns name)) = true → known name) →
        (∀ read ∈ missedFrom visible done position rest, known read.name) →
        (∀ name, known name → view name = view' name) →
        (denoteAll last rest view).map Prod.fst = (denoteAll last rest view').map Prod.fst := by
  refine Stmt.induction ?action ?block ?nil ?cons
  case action =>
    intro a visible position known view view' hvisible hmissed hagree
    have hvalue : a.value.denote view = a.value.denote view' :=
      Expr.denote_congr fun name hname =>
        hagree name (known_of_missedAt_action hvisible hmissed name hname)
    rw [denote, denote]
    cases a with
    | assign target value =>
        rw [Action.denote, Action.denote, show value.denote view = value.denote view' from hvalue]
        cases value.denote view' with
        | error e => exact .error e
        | ok v =>
            refine .ok _ fun name hname => ?_
            rw [View.bind, View.bind]
            split
            · rfl
            · rename_i hne
              refine hagree name (hname.resolve_right fun hassigns => hne ?_)
              simpa [assigns] using hassigns
    | ret value =>
        rw [Action.denote, Action.denote, show value.denote view = value.denote view' from hvalue]
        cases value.denote view' with
        | error e => exact .error e
        | ok v =>
            exact .ok _ fun name hname => hagree name (hname.resolve_right (by simp [assigns]))
  case block =>
    intro body ih visible position known view view' hvisible hmissed hagree
    rw [missedAt_block] at hmissed
    have hbody := ih [] visible position known none view view' (by simpa using hvisible) hmissed
      hagree
    have hkept : ∀ name, known name ∨ (Stmt.block body).assigns name = true →
        view name = view' name :=
      fun name hname => hagree name (hname.resolve_right (by simp [assigns]))
    rw [denote, denote]
    rcases hrun : denoteAll none body view with e | ⟨completion, inner⟩ <;>
      rcases hrun' : denoteAll none body view' with e' | ⟨completion', inner'⟩ <;>
      rw [hrun, hrun'] at hbody <;> cases hbody
    · exact .error e
    · exact .ok completion hkept
  case nil =>
    intro done visible position known last view view' _ _ _
    rw [denoteAll, denoteAll]
    rfl
  case cons =>
    intro s rest ihs ihrest done visible position known last view view' hvisible hmissed hagree
    rw [missedFrom_cons] at hmissed
    have hs := ihs _ position known view view' hvisible
      (fun read hread => hmissed read (List.mem_append_left _ hread)) hagree
    rw [denoteAll, denoteAll]
    -- The rest is run only after a normal completion, and then both runs agree on one name more.
    generalize s.denote view = x at hs
    generalize s.denote view' = y at hs
    cases hs with
    | error e => rfl
    | @ok completion mid mid' hmid =>
        cases completion with
        | returned value => rfl
        | normal value =>
            refine ihrest (done ++ [s]) visible (position + s.actionCount) _ value mid mid'
              ?_ ?_ hmid
            · intro name hname
              rw [List.any_append, List.any_cons, List.any_nil, Bool.or_false, ← Bool.or_assoc,
                Bool.or_eq_true] at hname
              exact hname.imp_left (hvisible name)
            · exact fun read hread => Or.inl (hmissed read (List.mem_append_right _ hread))

/-- In a tree with one empty scope, resolution misses exactly the reads that see
no assignment.  So its report is a list of the names that a program takes from
outside. -/
theorem unresolvedReads_withRoot (program : Stmt) :
    (program.resolve 0 (.start .withRoot)).2.unresolvedReads =
      program.missedAt (fun _ => false) 0 := by
  have grown : (ScopeTree.withRoot : Declarations).Grown := .root .empty
  obtain ⟨-, hreads, -⟩ :=
    resolveAt_reads.1 program 0 0 (.start .withRoot) grown.ranked (by decide)
  have hempty : (Resolver.start .withRoot).scopes.contains 0 = fun _ => false := by
    funext name
    rfl
  rw [hempty, Resolver.unresolvedReads_start, List.nil_append] at hreads
  exact hreads

/-- Environments that agree on the names which resolution reports give the same
result.  The two scopes may stand at different depths, and a name may be found
in different places. -/
theorem evaluate_congr_of_mem_unresolved {env env' : Environment} {scope scope' : ScopeId}
    (program : Stmt) (grown : env.Grown) (grown' : env'.Grown) (hscope : scope < env.size)
    (hscope' : scope' < env'.size)
    (hagree : ∀ name ∈ (program.resolve 0 (.start .withRoot)).2.unresolved,
      env.lookup scope name = env'.lookup scope' name) :
    (program.evaluate env scope).1 = (program.evaluate env' scope').1 := by
  have hmissed : ∀ read ∈ program.missedAt (fun _ => false) 0,
      read.name ∈ (program.resolve 0 (.start .withRoot)).2.unresolved := by
    intro read hread
    rw [← unresolvedReads_withRoot] at hread
    exact List.mem_map_of_mem hread
  have halike := denote_alike.1 program (fun _ => false) 0 _ (env.lookup scope)
    (env'.lookup scope') (by simp) hmissed hagree
  have hmap : ∀ x : Except EvalError (Completion × View),
      x.map (fun result => result.1.value?) = (x.map Prod.fst).map Completion.value? := by
    intro x
    cases x <;> rfl
  rw [evaluate_eq_denote program grown hscope, evaluate_eq_denote program grown' hscope', hmap,
    hmap, halike.map_fst]

/-- **Evaluation depends on the outside only through the names that resolution reports** when it is
run in a tree with one empty scope.  If these names have the same values, or none, in a scope of one
environment and in a scope of another, the program has the same result in both, be it a value or an
error.  A program that resolves there has the same result everywhere. -/
theorem evaluate_congr_of_unresolved (program : Stmt) :
    (∀ (env env' : Environment) (scope scope' : ScopeId), env.Grown → env'.Grown →
        scope < env.size → scope' < env'.size →
        (∀ name ∈ (program.resolve 0 (.start .withRoot)).2.unresolved,
          env.lookup scope name = env'.lookup scope' name) →
        (program.evaluate env scope).1 = (program.evaluate env' scope').1) ∧
      (program.resolves .withRoot 0 = true →
        ∀ (env env' : Environment) (scope scope' : ScopeId), env.Grown → env'.Grown →
          scope < env.size → scope' < env'.size →
          (program.evaluate env scope).1 = (program.evaluate env' scope').1) := by
  refine ⟨fun env env' scope scope' grown grown' hscope hscope' =>
    evaluate_congr_of_mem_unresolved program grown grown' hscope hscope', ?_⟩
  intro hresolves env env' scope scope' grown grown' hscope hscope'
  refine evaluate_congr_of_mem_unresolved program grown grown' hscope hscope' ?_
  rw [Resolver.unresolved, (resolves_iff program .withRoot 0).mp hresolves]
  simp

/-- The outer values of a name that the program assigns before it reads it do not matter, nor does
the scope in which the other name is found; and a program without free names has one result. -/
theorem evaluate_congr_of_hidden_names :
    let program : Stmt := .block [
      .assign "y" (.variable "x"),
      .block [.assign "x" (.literal (.int 5)),
        .ret (.binary .plus (.variable "x") (.variable "y"))]]
    let closed : Stmt := .block [
      .assign "x" (.literal (.int 1)), .ret (.binary .intDiv (.variable "x") (.literal (.int 0)))]
    let env : Environment := (ScopeTree.withRoot.declare 0 "x" (.int 2)).declare 0 "y" (.int 7)
    let env' : Environment :=
      ((ScopeTree.withRoot.declare 0 "x" (.int 9)).create (some 0)).declare 1 "x" (.int 2)
    (program.resolve 0 (.start .withRoot)).2.unresolved = ["x"] ∧
      (program.evaluate env 0).1 = .ok (some (.int 7)) ∧
      (program.evaluate env' 1).1 = .ok (some (.int 7)) ∧
      (closed.evaluate env 0).1 = (closed.evaluate env' 0).1 := by
  intro program closed env env'
  have hroot : (ScopeTree.withRoot : Environment).Grown := .root .empty
  have grown : env.Grown := .declare "y" _ (.declare "x" _ hroot (by decide)) (by decide)
  have grown' : env'.Grown :=
    .declare "x" _ (.child (.declare "x" _ hroot (by decide)) (by decide)) (by decide)
  have hunresolved : (program.resolve 0 (.start .withRoot)).2.unresolved = ["x"] := by decide
  have hresult : (program.evaluate env 0).1 = .ok (some (.int 7)) :=
    (evaluate_eq_denote program grown (by decide)).trans (by rfl)
  have hsame : (program.evaluate env 0).1 = (program.evaluate env' 1).1 := by
    refine (evaluate_congr_of_unresolved program).1 env env' 0 1 grown grown' (by decide)
      (by decide) fun name hname => ?_
    rw [hunresolved, List.mem_singleton] at hname
    subst hname
    rfl
  exact ⟨hunresolved, hresult, hsame.symm.trans hresult,
    (evaluate_congr_of_unresolved closed).2 (by decide) env env' 0 0 grown grown' (by decide)
      (by decide)⟩

end Stmt

end StraightLine
