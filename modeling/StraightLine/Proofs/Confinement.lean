import StraightLine.Proofs.BoundsChecks
import StraightLine.Proofs.NameSafety

/-!
# What a run leaves behind

A run works in one arena, and an error leaves the arena as it is at that moment.  Still what a
program does stays below the scope in which it was started: of the scopes that existed before, that
one alone can be marked, by a new child or by a binding, and all new scopes descend from it.

## Main definitions

* `ScopeTree.Confined` — a change of a tree that stays inside one scope.
* `Stmt.mark` — what a program does to the scope in which it was started.
* `Step.Keeps` — a tree holds what some steps have bound.

## Main statements

* `ScopeTree.Confined.of_create` — what happens inside a fresh scope marks no older one.
* `Stmt.run_confined` — every run stays inside the scope in which it was started.
* `Stmt.get?_evaluate` — what becomes of the scopes that existed before.
* `Step.Completes.keeps` — bindings stay until they are made again.
* `Stmt.exists_failed_of_error` — where a program fails, and in which tree.
* `Stmt.evaluate_confined` — what evaluation does to an environment, for every outcome.

## Design notes

* **The frame is carried by the scope, not by the statement.**  The statements of a block may mark
  the scope of that block as they like; that scope is new for everybody outside, so outside nothing
  of it shows.
* **What has been done before an error is read off the trail.**  A failing action changes nothing,
  so the tree at the end is the one in which it was reached.
-/

namespace StraightLine

/-! ## Changes inside a scope -/

namespace ScopeTree

variable {α : Type} {scope : ScopeId} {before middle after : ScopeTree α}

/-- A change of a tree that stays inside one scope: the other scopes are as they
were, and the new ones descend from it.

`Spares` says what older scopes can see; this says what is stored in them.  It
has `spares` as a field because the descent of the new scopes is only kept by a
later change if that one leaves the chains of parents alone. -/
structure Confined (scope : ScopeId) (before after : ScopeTree α) : Prop where
  spares : Spares scope before after
  get?_eq : ∀ id < before.size, id ≠ scope → after.get? id = before.get? id
  descends : ∀ id < after.size, before.size ≤ id → scope ∈ after.ancestors id

namespace Confined

theorem refl (ranked : before.Ranked) : Confined scope before before where
  spares := .refl ranked
  get?_eq _ _ _ := rfl
  descends _ hlt hle := absurd hlt (Nat.not_lt.mpr hle)

theorem trans (h : Confined scope before middle) (h' : Confined scope middle after) :
    Confined scope before after where
  spares := h.spares.trans h'.spares
  get?_eq id hid hne :=
    (h'.get?_eq id (Nat.lt_of_lt_of_le hid h.spares.size_le) hne).trans (h.get?_eq id hid hne)
  descends id hlt hle := by
    rcases Nat.lt_or_ge id middle.size with hmiddle | hmiddle
    · rw [h'.spares.ancestors id hmiddle]
      exact h.descends id hmiddle hle
    · exact h'.descends id hlt hmiddle

/-- A declaration stays inside its scope. -/
theorem declare (ranked : before.Ranked) (name : String) (value : α) :
    Confined scope before (before.declare scope name value) where
  spares := .declare ranked name value
  get?_eq id _ hne := by rw [get?_declare, if_neg hne]
  descends id hlt hle := by
    rw [size_declare] at hlt
    exact absurd hlt (Nat.not_lt.mpr hle)

/-- What happens inside a fresh scope marks no older one: these are as they were
right after the creation.  Seen from the parent of the fresh scope it stays
inside.  So the body of a block may do as it likes with the scope of the block,
and the only trace outside is the child. -/
theorem of_create {parent : ScopeId} (ranked : before.Ranked) (hparent : parent < before.size)
    (h : Confined before.size (before.create (some parent)) after) :
    Confined parent before after ∧ ∀ id < before.size,
      after.get? id = (before.create (some parent)).get? id := by
  have hsize : (before.create (some parent)).size = before.size + 1 := size_create ..
  have hold : ∀ id < before.size, after.get? id = (before.create (some parent)).get? id := by
    intro id hid
    refine h.get?_eq id ?_ (Nat.ne_of_lt hid)
    rw [hsize]
    exact Nat.lt_succ_of_lt hid
  -- The fresh scope is below its parent, and whatever is new later is below the fresh scope.
  have hfresh : parent ∈ after.ancestors before.size := by
    have hchain := h.spares.ancestors before.size (hsize ▸ Nat.lt_succ_self _)
    rw [hchain, ranked.ancestors_create_self hparent]
    exact List.mem_cons_of_mem _ (self_mem_ancestors hparent)
  refine ⟨⟨(h.spares.of_create ranked hparent).1, fun id hid hne => ?_, fun id hlt hle => ?_⟩, hold⟩
  · have hother : some parent ≠ some id := fun heq => hne (Option.some.inj heq).symm
    rw [hold id hid, get?_create, if_neg (Nat.ne_of_lt hid), if_neg hother]
  · rcases Nat.eq_or_lt_of_le hle with rfl | hgt
    · exact hfresh
    · have hbelow := h.descends id hlt (hsize ▸ hgt)
      exact h.spares.ranked.mem_ancestors_trans hbelow hfresh

end Confined

end ScopeTree

namespace Stmt

open ScopeTree

/-- **A run stays inside the scope in which it was started,** whatever its
outcome.  An error is no case of its own: the changes made before it have been
confined one by one, and the failing action makes none. -/
theorem run_confined :
    (∀ (s : Stmt) (scope : ScopeId) (position : Nat) (state : Run), state.scopes.Ranked →
        scope < state.scopes.size →
        Confined scope state.scopes (s.run scope position state).2.scopes) ∧
      ∀ (body : List Stmt) (scope : ScopeId) (position : Nat) (last : Option Value) (state : Run),
        state.scopes.Ranked → scope < state.scopes.size →
        Confined scope state.scopes (runAll scope position last body state).2.scopes := by
  refine Stmt.induction ?action ?block ?nil ?cons
  case action =>
    intro a scope position state ranked _
    rw [run]
    rcases a.run_cases scope position state with
      ⟨e, -, hrun⟩ | ⟨target, expr, value, -, -, hrun⟩ | ⟨expr, value, -, -, hrun⟩
    · rw [hrun]
      exact .refl ranked
    · rw [hrun]
      exact .declare ranked target value
    · rw [hrun]
      exact .refl ranked
  case block =>
    intro body ih scope position state ranked hscope
    -- The scope of the block is new, so what happens below it spares all older scopes.
    have hlocal : state.scopes.size < (state.enter scope).scopes.size :=
      Nat.lt_of_succ_le (Nat.le_of_eq (size_create ..).symm)
    have hinside := ih state.scopes.size position none (state.enter scope)
      (ranked.create (by simpa using hscope)) hlocal
    rw [run]
    exact (hinside.of_create ranked hscope).1
  case nil =>
    intro scope position last state ranked _
    rw [runAll]
    exact .refl ranked
  case cons =>
    intro s rest ihs ihrest scope position last state ranked hscope
    have hs := ihs scope position state ranked hscope
    rw [runAll_cons]
    rcases Ending.normal_or_andThen_eq (s.run scope position state) with
      ⟨value, next, hend⟩ | ⟨-, hself⟩
    · rw [hend] at hs ⊢
      exact hs.trans (ihrest scope (position + s.actionCount) value next hs.spares.ranked
        (Nat.lt_of_lt_of_le hscope hs.spares.size_le))
    · rw [hself]
      exact hs

/-! ## The scopes that existed before -/

/-- Evaluating an action binds the value of an assignment that succeeds and changes nothing else. -/
theorem evaluate_action (a : Action) (env : Environment) (scope : ScopeId) :
    (Stmt.action a).evaluate env scope =
      match a.value.evaluate env scope, a.target? with
      | .error e, _ => (.error e, env)
      | .ok value, some target => (.ok (some value), env.declare scope target value)
      | .ok value, none => (.ok (some value), env) := by
  unfold evaluate execute
  rw [run]
  rcases a.run_cases scope 0 (.start env) with
    ⟨e, heval, hrun⟩ | ⟨target, expr, value, rfl, heval, hrun⟩ | ⟨expr, value, rfl, heval, hrun⟩
  · rw [hrun, show a.value.evaluate env scope = .error e from heval]
    rfl
  · rw [hrun, show (Action.assign target expr).value.evaluate env scope = .ok value from heval]
    rfl
  · rw [hrun, show (Action.ret expr).value.evaluate env scope = .ok value from heval]
    rfl

/-- What a program with a given result does to the scope in which it was
started, when the next scope is `next`: a block becomes its child, also if it
fails later, and an assignment that succeeds binds its target. -/
def mark (next : ScopeId) : Stmt → Except EvalError (Option Value) → Scope Value → Scope Value
  | .block _, _, scope => scope.addChild next
  | .action (.assign target _), .ok (some value), scope => scope.bind target value
  | .action _, _, scope => scope

theorem get?_evaluate {env : Environment} {scope : ScopeId} (ranked : env.Ranked)
    (hscope : scope < env.size) (program : Stmt) :
    ∀ id < env.size, (program.evaluate env scope).2.get? id = (env.get? id).map fun old =>
      if id = scope then program.mark env.size (program.evaluate env scope).1 old else old := by
  intro id hid
  obtain ⟨old, hget⟩ := exists_get? hid
  rw [hget, Option.map_some]
  cases program with
  | action a =>
      rw [evaluate_action]
      cases heval : a.value.evaluate env scope with
      | error e => cases a <;> simp [mark, hget]
      | ok value =>
          cases a with
          | assign target expr =>
              simp only [Action.target?, mark]
              rw [get?_declare, hget]
              by_cases hsame : id = scope <;> simp [hsame]
          | ret expr => simp [Action.target?, mark, hget]
  | block body =>
      -- The block has a scope of its own; the scope around it gets a child and nothing else.
      have hlocal : env.size < ((Run.start env).enter scope).scopes.size :=
        Nat.lt_of_succ_le (Nat.le_of_eq (size_create ..).symm)
      have hinside := run_confined.2 body env.size 0 none ((Run.start env).enter scope)
        (ranked.create (by simpa using hscope)) hlocal
      have hold := (hinside.of_create ranked hscope).2 id hid
      have hrun : ((Stmt.block body).evaluate env scope).2 =
          (runAll env.size 0 none body ((Run.start env).enter scope)).2.scopes := by
        unfold evaluate execute
        rw [run]
        rfl
      rw [hrun, hold, get?_create, if_neg (Nat.ne_of_lt hid), hget]
      by_cases hsame : id = scope
      · simp [hsame, mark]
      · simp [hsame, Ne.symm hsame]

end Stmt

/-! ## What has been bound -/

/-- Two sites of a program stand for two scopes. -/
theorem Site.eq_of_scope_eq {start size : Nat} (hstart : start < size) {site site' : Site}
    (h : site.scope start size = site'.scope start size) : site = site' := by
  cases site with
  | outer =>
      cases site' with
      | outer => rfl
      | block number' =>
          have h : start = size + number' := h
          omega
  | block number =>
      cases site' with
      | outer =>
          have h : size + number = start := h
          omega
      | block number' =>
          have h : size + number = size + number' := h
          rw [Nat.add_left_cancel h]

namespace Step

variable {start size : Nat}

theorem Placed.of_append {xs ys : List Step} :
    ∀ {count : Nat}, Placed count (xs ++ ys) → Placed count xs := by
  induction xs with
  | nil => exact fun _ => trivial
  | cons step rest ih =>
      intro count placed
      cases step with
      | enter site => exact ⟨placed.1, ih placed.2⟩
      | act site vertex => exact ⟨placed.1, ih placed.2⟩

/-- A tree holds what some steps have bound: every assignment among them had a
value when it was reached, and its target has that value in the scope of the
step, unless a later one of the steps is an assignment to the same name in the
same scope.

The steps are those before the failing action, and the tree is the one at the
end of the run.  The value is the one at the time of the assignment, so it is
given by a run of the steps before and not by evaluating the expression again in
the final tree. -/
def Keeps (scopeOf : Site → ScopeId) (steps : List Step) (state : Run) (tree : Environment) :
    Prop :=
  ∀ before site vertex target expr later, steps = before ++ .act site vertex :: later →
    vertex.action = .assign target expr →
    (∀ vertex', .act site vertex' ∈ later → vertex'.action.target? ≠ some target) →
    ∃ mid value, Completes scopeOf before state mid ∧
      expr.evaluate mid.scopes (scopeOf site) = .ok value ∧
      tree.local? (scopeOf site) target = some value

namespace Completes

/-- Steps that complete can be cut anywhere. -/
theorem exists_of_append {scopeOf : Site → ScopeId} {xs ys : List Step} :
    ∀ {state final : Run}, Completes scopeOf (xs ++ ys) state final →
      ∃ mid, Completes scopeOf xs state mid ∧ Completes scopeOf ys mid final := by
  induction xs with
  | nil =>
      intro state final h
      exact ⟨state, .nil state, h⟩
  | cons step rest ih =>
      intro state final h
      cases h with
      | cons hstep hrest =>
          obtain ⟨mid, hxs, hys⟩ := ih hrest
          exact ⟨mid, .cons hstep hxs, hys⟩

/-- The tree hosts the program as long as steps complete. -/
theorem hosts {xs ys : List Step} {state mid : Run} {count : Nat}
    (h : Completes (Site.scope start size) xs state mid)
    (hosts : state.scopes.Hosts start size count) (placed : Placed count (xs ++ ys)) :
    ∃ count', mid.scopes.Hosts start size count' ∧ Placed count' ys := by
  induction h generalizing count with
  | nil state => exact ⟨count, hosts, placed⟩
  | @cons step rest state next final value hstep _ ih =>
      cases step with
      | enter site =>
          cases hstep
          exact ih (hosts.enter placed.1) placed.2
      | act site vertex =>
          rcases vertex.action.run_cases (site.scope start size) vertex.position state with
            ⟨e, -, hrun⟩ | ⟨target, expr, value, -, -, hrun⟩ | ⟨expr, value, -, -, hrun⟩ <;>
            rw [run, hrun] at hstep <;> cases hstep
          exact ih (hosts.declare site target value) placed.2

/-- A binding stays while no step assigns to its name in its scope.  Steps in
other scopes do not matter, since the sites of a program stand for different
scopes (`Site.eq_of_scope_eq`). -/
theorem local?_eq {steps : List Step} {state final : Run} {count : Nat} {site : Site}
    {name : String} (h : Completes (Site.scope start size) steps state final)
    (hosts : state.scopes.Hosts start size count) (placed : Placed count steps)
    (hother : ∀ vertex, .act site vertex ∈ steps → vertex.action.target? ≠ some name) :
    final.scopes.local? (site.scope start size) name =
      state.scopes.local? (site.scope start size) name := by
  induction h generalizing count with
  | nil state => rfl
  | @cons step rest state next final value hstep _ ih =>
      have hrest : ∀ vertex, .act site vertex ∈ rest → vertex.action.target? ≠ some name :=
        fun vertex hmem => hother vertex (List.mem_cons_of_mem _ hmem)
      cases step with
      | enter site' =>
          cases hstep
          rw [ih (hosts.enter placed.1) placed.2 hrest]
          exact ScopeTree.local?_create ..
      | act site' vertex =>
          rcases vertex.action.run_cases (site'.scope start size) vertex.position state with
            ⟨e, -, hrun⟩ | ⟨target, expr, value, hassign, -, hrun⟩ | ⟨expr, value, -, -, hrun⟩ <;>
            rw [run, hrun] at hstep <;> cases hstep
          rw [ih (hosts.declare site' target value) placed.2 hrest]
          show (state.scopes.declare _ target value).local? _ name = _
          rw [ScopeTree.local?_declare (hosts.scope_lt placed.1), if_neg]
          rintro ⟨hscope, rfl⟩
          cases Site.eq_of_scope_eq hosts.start_lt hscope
          exact hother vertex List.mem_cons_self (by rw [hassign]; rfl)

/-- **Steps that complete have their bindings kept.** -/
theorem keeps {steps : List Step} {state final : Run} {count : Nat}
    (h : Completes (Site.scope start size) steps state final)
    (hosts : state.scopes.Hosts start size count) (placed : Placed count steps) :
    Keeps (Site.scope start size) steps state final.scopes := by
  rintro before site vertex target expr later rfl hassign hother
  obtain ⟨mid, hbefore, hact⟩ := h.exists_of_append
  obtain ⟨count', hosts', placed'⟩ := hbefore.hosts hosts placed
  cases hact with
  | @cons _ _ _ next _ last hstep hlater =>
      rcases vertex.action.run_cases (site.scope start size) vertex.position mid with
        ⟨e, -, hrun⟩ | ⟨target', expr', value, haction, heval, hrun⟩ | ⟨_, _, haction, -, -⟩
      · rw [run, hrun] at hstep
        cases hstep
      · rw [hassign] at haction
        cases haction
        rw [run, hrun] at hstep
        cases hstep
        refine ⟨mid, value, hbefore, heval, ?_⟩
        rw [hlater.local?_eq (hosts'.declare site target value) placed'.2 hother]
        show (mid.scopes.declare _ target value).local? _ target = _
        rw [ScopeTree.local?_declare (hosts'.scope_lt placed'.1), if_pos ⟨rfl, rfl⟩]
      · rw [hassign] at haction
        cases haction

end Completes

end Step

namespace Stmt

open ScopeTree

/-- An action that fails as a program of its own leaves the tree that it was given. -/
theorem evaluate_action_of_error {a : Action} {env : Environment} {scope : ScopeId} {e : EvalError}
    (h : ((Stmt.action a).evaluate env scope).1 = .error e) :
    ((Stmt.action a).evaluate env scope).2 = env := by
  rw [evaluate_action] at h ⊢
  cases heval : a.value.evaluate env scope with
  | error e' => rfl
  | ok value =>
      rw [heval] at h
      cases htarget : a.target? with
      | none => rfl
      | some target =>
          rw [htarget] at h
          cases h

/-- A program that fails does so in the last action that it has started, and in
the tree in which that action was reached.  Nothing is undone and nothing is
added after the failure. -/
theorem exists_failed_of_error {program : Stmt} {env : Environment} {scope : ScopeId}
    {e : EvalError} (h : (program.evaluate env scope).1 = .error e) :
    ∃ before site failed later mid,
      program.trail = before ++ .act site failed :: later ∧
      (program.execute env scope).2.started.toList = Step.vertices before ++ [failed] ∧
      Step.Completes (Site.scope scope env.size) before (.start env) mid ∧
      failed.action.value.evaluate mid.scopes (site.scope scope env.size) = .error e ∧
      (program.evaluate env scope).2 = mid.scopes := by
  have herror := execute_of_evaluate_error h
  have hrun := execute_eq_runAll program env scope
  rcases Step.runAll_cases program.trail none (.start env) with
    ⟨value, final, hall, -⟩ | ⟨before, site, failed, later, mid, hsplit, hbefore, hlast, -⟩
  · rw [hrun, hall] at herror
    cases herror
  · rw [hlast] at hrun
    rw [hrun] at herror
    rcases failed.action.run_cases (site.scope scope env.size) failed.position mid with
      ⟨e', heval, hend⟩ | ⟨_, _, _, -, -, hend⟩ | ⟨_, _, -, -, hend⟩
    · rw [hend] at hrun herror
      cases herror
      refine ⟨before, site, failed, later, mid, hsplit, ?_, hbefore, heval,
        congrArg (fun ending => ending.2.scopes) hrun⟩
      rw [hrun]
      show (mid.started.push _).toList = _
      rw [Array.toList_push, hbefore.started_eq]
      rfl
    · -- An action that succeeds would not have failed.
      rw [hend] at herror
      cases herror
    · rw [hend] at herror
      cases herror

/-- **Evaluation is confined, and a failing statement leaves no trace.**  Whatever the outcome of a
program that is started in a scope of a grown environment, the scopes that existed before are as
they were, except for the mark of the program on that scope: a new child for a block, and a binding
for an assignment that succeeds.  All new scopes descend from it.  If the program fails it does so
in the last action that it has started.  The tree at the end is the one in which that action was
reached, and holds what the steps before have bound; an action that fails as a program of its own
leaves the tree that it was given. -/
theorem evaluate_confined {env : Environment} {scope : ScopeId} (program : Stmt)
    (grown : env.Grown) (hscope : scope < env.size) :
    let result := (program.evaluate env scope).1
    let after := (program.evaluate env scope).2
    (∀ id < env.size, after.get? id = (env.get? id).map fun old =>
        if id = scope then program.mark env.size result old else old) ∧
      (∀ id < after.size, env.size ≤ id → after.isDescendantOf id scope = true) ∧
      ∀ e, result = .error e →
        ((∀ body, program ≠ .block body) → after = env) ∧
          ∃ before site failed later mid,
            program.trail = before ++ .act site failed :: later ∧
            (program.execute env scope).2.started.toList = Step.vertices before ++ [failed] ∧
            Step.Completes (Site.scope scope env.size) before (.start env) mid ∧
            failed.action.value.evaluate mid.scopes (site.scope scope env.size) = .error e ∧
            after = mid.scopes ∧
            Step.Keeps (Site.scope scope env.size) before (.start env) after := by
  intro result after
  have hafter : after.Grown := (Stmt.run?_eq.1 program scope 0 (.start env) grown hscope).2.1
  have hconfined : Confined scope env after :=
    run_confined.1 program scope 0 (.start env) grown.ranked hscope
  refine ⟨get?_evaluate grown.ranked hscope program, fun id hlt hle => ?_, fun e he => ⟨?_, ?_⟩⟩
  · rw [hafter.isDescendantOf_iff]
    exact hconfined.descends id hlt hle
  · intro hnot
    cases program with
    | action a => exact evaluate_action_of_error he
    | block body => exact absurd rfl (hnot body)
  · obtain ⟨before, site, failed, later, mid, hsplit, hstarted, hbefore, heval, hsame⟩ :=
      exists_failed_of_error he
    have hosts : env.Hosts scope env.size 0 := ⟨grown.ranked, hscope, rfl⟩
    have placed : Step.Placed 0 (before ++ .act site failed :: later) :=
      hsplit ▸ program.placed_trail
    refine ⟨before, site, failed, later, mid, hsplit, hstarted, hbefore, heval, hsame, ?_⟩
    rw [show after = mid.scopes from hsame]
    exact hbefore.keeps hosts placed.of_append

/-- A division fails in an inner block: the bindings before it are there, its own is not, and of the
scopes that existed before only the one of the program has a new child. -/
theorem evaluate_confined_of_division :
    let env : Environment := (ScopeTree.withRoot.create (some 0)).declare 0 "x" (.int 2)
    let program : Stmt := .block [
      .assign "x" (.binary .plus (.variable "x") (.literal (.int 1))),
      .block [.assign "y" (.variable "x"),
        .assign "y" (.binary .intDiv (.variable "y") (.literal (.int 0)))]]
    let after := (program.evaluate env 1).2
    env.Grown ∧ 1 < env.size ∧
      (program.evaluate env 1).1 = .error (.divisionByZero .intDiv) ∧
      after.get? 0 = env.get? 0 ∧ after.get? 1 = (env.get? 1).map (·.addChild 2) ∧
      after.isDescendantOf 3 1 = true ∧ after.local? 2 "x" = some (.int 3) ∧
      after.local? 3 "y" = some (.int 3) ∧
      ∃ before site failed later mid,
        program.trail = before ++ .act site failed :: later ∧ after = mid.scopes ∧
          Step.Completes (Site.scope 1 env.size) before (.start env) mid := by
  intro env program after
  have hroot : (ScopeTree.withRoot : Environment).Grown := .root .empty
  have hchild : (ScopeTree.withRoot.create (some 0) : Environment).Grown :=
    .child hroot (by decide)
  have grown : env.Grown := .declare "x" (.int 2) hchild (by decide)
  have hscope : 1 < env.size := by decide
  have herror : (program.evaluate env 1).1 = .error (.divisionByZero .intDiv) := by decide
  obtain ⟨hold, hnew, hfails⟩ := evaluate_confined program grown hscope
  obtain ⟨-, before, site, failed, later, mid, hsplit, -, hbefore, -, hsame, -⟩ :=
    hfails _ herror
  refine ⟨grown, hscope, herror, (hold 0 (by decide)).trans (by rfl),
    (hold 1 (by decide)).trans (by rfl), hnew 3 (by decide) (by decide), by decide, by decide,
    before, site, failed, later, mid, hsplit, hsame, hbefore⟩

end Stmt

end StraightLine
