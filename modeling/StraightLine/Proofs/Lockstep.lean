import StraightLine.Proofs.Execution
import StraightLine.Proofs.Planting

/-!
# Resolution and evaluation in lockstep

Both passes over a program name the scope of a block by the number of scopes there were before.
Started in trees of the same shape they therefore make the same scopes under the same names, up to
the point where evaluation returns or fails; resolution goes on from there.

## Main definitions

* `SameShape` — the same scopes, parents and declared names.
* `Restricts` — the scopes of one tree are the first ones of another, with fewer names.
* `InStep` — how the end of a run compares with the tree that resolution leaves.

## Main statements

* `Stmt.run_inStep` — a statement that completes normally keeps the shapes the same.
* `Stmt.scopes_in_lockstep` — what resolution makes of a tree, and what evaluation makes of one of
  the same shape.

## Design notes

* **Two relations, one for each side of the stopping point.**  As long as the run goes on the trees
  have the same shape, so the next scope gets the same name in both.  Once it has stopped its tree
  is fixed, and all that matters is that resolution takes nothing back.
-/

namespace StraightLine

variable {α β γ : Type}

/-- Two trees with the same scopes, parents and declared names.  The values
bound to the names do not enter, so a tree of resolution can be compared with
one of evaluation, which has values of another type. -/
structure SameShape (tree : ScopeTree α) (tree' : ScopeTree β) : Prop where
  size_eq : tree.size = tree'.size
  parent_eq : ∀ id, tree.parent? id = tree'.parent? id
  declares_eq : ∀ id name, tree.declaresAt id name = tree'.declaresAt id name

/-- The scopes of a tree are the first ones of another tree, with the same
parents, and declare nothing that these do not declare.  Being the first ones is
essential: with fewer names and fewer scopes under other identities nothing
could be compared. -/
structure Restricts (tree : ScopeTree α) (tree' : ScopeTree β) : Prop where
  size_le : tree.size ≤ tree'.size
  parent_eq : ∀ id < tree.size, tree.parent? id = tree'.parent? id
  declares_of : ∀ id name, tree.declaresAt id name = true → tree'.declaresAt id name = true

namespace SameShape

variable {tree : ScopeTree α} {tree' : ScopeTree β}

theorem empty : SameShape (.empty : ScopeTree α) (.empty : ScopeTree β) :=
  ⟨rfl, fun _ => rfl, fun _ _ => rfl⟩

theorem create (h : SameShape tree tree') (parent : Option ScopeId) :
    SameShape (tree.create parent) (tree'.create parent) where
  size_eq := by rw [ScopeTree.size_create, ScopeTree.size_create, h.size_eq]
  parent_eq id := by
    rw [ScopeTree.parent?_create, ScopeTree.parent?_create, h.size_eq, h.parent_eq]
  declares_eq id name := by
    rw [ScopeTree.declaresAt_create, ScopeTree.declaresAt_create, h.declares_eq]

theorem declare (h : SameShape tree tree') {id : ScopeId} (hid : id < tree.size) (name : String)
    (value : α) (value' : β) :
    SameShape (tree.declare id name value) (tree'.declare id name value') where
  size_eq := by rw [ScopeTree.size_declare, ScopeTree.size_declare, h.size_eq]
  parent_eq j := by rw [ScopeTree.parent?_declare, ScopeTree.parent?_declare, h.parent_eq]
  declares_eq j m := by
    have hid' : id < tree'.size := h.size_eq ▸ hid
    rw [Bool.eq_iff_iff, ScopeTree.declaresAt_declare hid, ScopeTree.declaresAt_declare hid',
      h.declares_eq]

theorem restricts (h : SameShape tree tree') : Restricts tree' tree where
  size_le := Nat.le_of_eq h.size_eq.symm
  parent_eq id _ := (h.parent_eq id).symm
  declares_of id name hname := (h.declares_eq id name).trans hname

end SameShape

theorem Restricts.trans {tree : ScopeTree α} {tree' : ScopeTree β} {tree'' : ScopeTree γ}
    (h : Restricts tree tree') (h' : Restricts tree' tree'') : Restricts tree tree'' where
  size_le := Nat.le_trans h.size_le h'.size_le
  parent_eq id hid :=
    (h.parent_eq id hid).trans (h'.parent_eq id (Nat.lt_of_lt_of_le hid h.size_le))
  declares_of id name hname := h'.declares_of id name (h.declares_of id name hname)

/-- Planting takes nothing back.  So whatever a stopped run has left remains a
restriction while resolution goes on with the rest of the program. -/
theorem Planted.restricts {before after : Declarations} {scope : ScopeId} {names : List String}
    {plots : List Plot} (h : Planted before after scope names plots) : Restricts before after where
  size_le := by
    rw [h.size_eq]
    exact Nat.le_add_right _ _
  parent_eq id hid := (h.parent_old id hid).symm
  declares_of id name hname := by
    rcases Nat.lt_or_ge id before.size with hid | hid
    · exact (h.declares_old id hid name).mpr (.inl hname)
    · rw [ScopeTree.declaresAt_eq_false hid] at hname
      cases hname

/-- What the end of a run has in common with the tree that resolution leaves: it
is a restriction, and the shapes are the same if the run has completed normally.

The restriction alone would hold for every outcome, but it is not inductive: the
next block gets the same identity in both passes only if both trees have the
same number of scopes.  So the induction carries the shape while the run goes
on, and keeps the restriction once it has stopped. -/
structure InStep (ending : Ending) (decls : Declarations) : Prop where
  restricts : Restricts ending.2.scopes decls
  same : ∀ value, ending.1 = .ok (.normal value) → SameShape decls ending.2.scopes

/-- A run that completes normally only has to keep the shapes the same. -/
theorem InStep.normal {value : Option Value} {state : Run} {decls : Declarations}
    (h : SameShape decls state.scopes) : InStep (.ok (.normal value), state) decls :=
  ⟨h.restricts, fun _ _ => h⟩

/-- A run that has stopped stays a restriction whatever resolution adds.  Here a
return and an error are the same thing. -/
theorem InStep.stopped {ending : Ending} {decls : Declarations}
    (hne : ∀ value, ending.1 ≠ .ok (.normal value)) (h : Restricts ending.2.scopes decls) :
    InStep ending decls :=
  ⟨h, fun value hnormal => absurd hnormal (hne value)⟩

namespace Stmt

open ScopeTree

theorem restricts_resolveAt (s : Stmt) {scope : ScopeId} (position : Nat) {r : Resolver}
    (hscope : scope < r.scopes.size) :
    Restricts r.scopes (s.resolveAt scope position r).2.scopes :=
  ((planted_resolveAt scope position r hscope).1 s).restricts

/-- **The two passes keep in step** over every statement, whatever its outcome.
Resolution has no outcome that would stop it, so its side of the statement is
only the tree that it leaves. -/
theorem run_inStep :
    (∀ (s : Stmt) (scope : ScopeId) (position : Nat) (state : Run) (r : Resolver),
        SameShape r.scopes state.scopes → scope < r.scopes.size →
        InStep (s.run scope position state) (s.resolveAt scope position r).2.scopes) ∧
      ∀ (body : List Stmt) (scope : ScopeId) (position : Nat) (last : Option Value) (valid : Bool)
        (state : Run) (r : Resolver), SameShape r.scopes state.scopes → scope < r.scopes.size →
        InStep (runAll scope position last body state)
          (resolveAll scope position valid body r).2.scopes := by
  refine Stmt.induction ?action ?block ?nil ?cons
  case action =>
    intro a scope position state r hsame hscope
    rw [run, resolveAt, (a.resolve_spec scope position r).1]
    rcases a.run_cases scope position state with
      ⟨e, -, hrun⟩ | ⟨target, expr, value, rfl, -, hrun⟩ | ⟨expr, value, rfl, -, hrun⟩
    · -- A failing assignment binds nothing, but resolution has declared its target.
      rw [hrun]
      have hgrows := restricts_resolveAt (.action a) position hscope
      rw [resolveAt, (a.resolve_spec scope position r).1] at hgrows
      exact .stopped (by simp) (hsame.restricts.trans hgrows)
    · rw [hrun]
      exact .normal (hsame.declare hscope target () value)
    · rw [hrun]
      exact .stopped (by simp) hsame.restricts
  case block =>
    intro body ih scope position state r hsame _
    -- Both trees have as many scopes, so the new one gets the same name in both.
    rw [run, resolveAt, ← hsame.size_eq]
    exact ih r.scopes.size position none true (state.enter scope) (r.enter scope)
      (hsame.create (some scope)) (r.lt_size_enter scope)
  case nil =>
    intro scope position last valid state r hsame _
    rw [runAll, resolveAll]
    exact .normal hsame
  case cons =>
    intro s rest ihs ihrest scope position last valid state r hsame hscope
    have hs := ihs scope position state r hsame hscope
    have hgrows := restricts_resolveAt s position hscope
    have hscope' := Nat.lt_of_lt_of_le hscope hgrows.size_le
    rw [runAll_cons, resolveAll]
    rcases Ending.normal_or_andThen_eq (s.run scope position state) with
      ⟨value, next, hend⟩ | ⟨hne, hself⟩
    · rw [hend] at hs ⊢
      exact ihrest scope _ value _ next _ (hs.same value rfl) hscope'
    · -- The run has stopped, but resolution goes over the rest as well.
      rw [hself]
      exact .stopped hne (hs.restricts.trans
        ((planted_resolveAt scope _ _ hscope').2 rest _).restricts)

/-- **Resolution and evaluation build their scopes in lockstep.**  They are started in the same
scope of two trees of the same shape.  Resolution adds one scope for every block of the program, in
preorder, below the scope of the block around it, and with exactly the names that are assigned
directly in the block; the target of a program that is an assignment is declared in the scope it is
started in, and nothing else changes.  What evaluation leaves is a restriction of that tree, for
every outcome, and has the same shape if the program has a result and contains no return. -/
theorem scopes_in_lockstep {decls : Declarations} {env : Environment} {scope : ScopeId}
    (program : Stmt) (hsame : SameShape decls env) (hscope : scope < decls.size) :
    let resolved := (program.resolve scope (.start decls)).2.scopes
    let evaluated := (program.evaluate env scope).2
    let plots := program.plots scope decls.size
    plots.length = program.blockCount ∧
      Planted decls resolved scope program.target?.toList plots ∧
      Restricts evaluated resolved ∧
      ∀ value, (program.evaluate env scope).1 = .ok value →
        (∀ a ∈ program.actions, a.isReturn = false) → SameShape resolved evaluated := by
  intro resolved evaluated plots
  have hstep : InStep (program.execute env scope) resolved :=
    run_inStep.1 program scope 0 (.start env) (.start decls) hsame hscope
  refine ⟨length_plots.1 program scope decls.size,
    (planted_resolveAt scope 0 (.start decls) hscope).1 program, hstep.restricts, ?_⟩
  intro value hvalue hnone
  obtain ⟨completion, hcompletion⟩ := execute_of_evaluate_ok hvalue
  cases completion with
  | normal last => exact hstep.same last hcompletion
  | returned result =>
      obtain ⟨a, ha, hreturn⟩ := (started_of_ok hcompletion).2.mp ⟨result, rfl⟩
      rw [hnone a ha] at hreturn
      cases hreturn

/-- An error in a nested block leaves out the blocks and the names behind it. -/
theorem scopes_in_lockstep_of_error :
    let decls : Declarations := ScopeTree.withRoot.declare 0 "x" ()
    let env : Environment := ScopeTree.withRoot.declare 0 "x" (.int 2)
    let program : Stmt := .block [
      .assign "a" (.variable "x"),
      .block [.assign "b" (.variable "a"),
        .assign "c" (.binary .intDiv (.variable "b") (.literal (.int 0)))],
      .block [.assign "b" (.variable "a")],
      .assign "d" (.literal (.int 1))]
    let resolved := (program.resolve 0 (.start decls)).2.scopes
    let evaluated := (program.evaluate env 0).2
    SameShape decls env ∧ 0 < decls.size ∧
      Planted decls resolved 0 [] [⟨0, ["a", "d"]⟩, ⟨1, ["b", "c"]⟩, ⟨1, ["b"]⟩] ∧
      Restricts evaluated resolved ∧ resolved.size = 4 ∧ evaluated.size = 3 := by
  have hsame : SameShape (ScopeTree.withRoot.declare 0 "x" () : Declarations)
      (ScopeTree.withRoot.declare 0 "x" (.int 2) : Environment) :=
    (SameShape.empty.create none).declare (by decide) "x" () _
  have hlockstep := fun program =>
    scopes_in_lockstep program hsame (show 0 < ScopeTree.size _ by decide)
  exact ⟨hsame, by decide, (hlockstep _).2.1, (hlockstep _).2.2.1, by decide, by decide⟩

end Stmt

end StraightLine
