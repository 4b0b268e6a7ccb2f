import StraightLine.Evaluation
import StraightLine.Proofs.FlowShape
import StraightLine.Proofs.ScopeTree
import StraightLine.Proofs.Trail

/-!
# Runs along the trail

Running a program is running the steps of its trail until one returns or fails.  A run therefore
executes the live actions of the program in the order of its flow graph, and a run that ends early
has a definite last step.

## Main definitions

* `Ending` — the outcome of a run together with its last state, with `Ending.andThen`.
* `Step.run`, `Step.runAll` — the run of one step, and of a sequence.
* `Step.Completes` — all steps of a sequence complete normally.

## Main statements

* `Stmt.execute_eq_runAll` — running a program is running its trail.
* `Step.runAll_cases` — either all steps complete, or there is a first one that returns or fails.
* `Stmt.execute_cases` — the same for a program, with what the last step evaluates to.
* `Stmt.execute_follows_flow` — the executed actions in terms of the flow graph.

## Design notes

* **Nesting disappears before anything else is proved.**  A return or an error unwinds through all
  enclosing blocks; on the trail it simply ends the sequence.
* **The value of a block needs no stack.**  Opening a block resets the last value, and closing it
  keeps the last one inside, which is the value of the block as a statement.
-/

namespace StraightLine

open Occurrence

/-- How a run ends: its outcome and the state it leaves.  There is a state for
every outcome, an error included, because the scopes made so far stay. -/
abbrev Ending := Except EvalError Completion × Run

namespace Ending

/-- Goes on after a normal completion; a return and an error are passed on.
With its laws below it is all that is used of the way in which an early end
unwinds through blocks. -/
def andThen : Ending → (Option Value → Run → Ending) → Ending
  | (.ok (.normal value), next), go => go value next
  | (.ok (.returned value), next), _ => (.ok (.returned value), next)
  | (.error e, next), _ => (.error e, next)

@[simp] theorem andThen_normal (value : Option Value) (next : Run)
    (go : Option Value → Run → Ending) :
    andThen (.ok (.normal value), next) go = go value next := rfl

/-- An ending is normal, or nothing that would follow matters.  This is the one
case split of inductions over runs: either the induction hypothesis for the rest
applies, or there is no rest. -/
theorem normal_or_andThen_eq (ending : Ending) :
    (∃ value next, ending = (.ok (.normal value), next)) ∨
      (∀ value, ending.1 ≠ .ok (.normal value)) ∧ ∀ go, ending.andThen go = ending := by
  obtain ⟨outcome, next⟩ := ending
  rcases outcome with e | (value | value)
  · exact Or.inr ⟨by simp, fun _ => rfl⟩
  · exact Or.inl ⟨value, next, rfl⟩
  · exact Or.inr ⟨by simp, fun _ => rfl⟩

theorem andThen_self (ending : Ending) :
    ending.andThen (fun value next => (.ok (.normal value), next)) = ending := by
  rcases ending.normal_or_andThen_eq with ⟨value, next, rfl⟩ | ⟨-, hself⟩
  · rfl
  · exact hself _

theorem andThen_assoc (ending : Ending) (go go' : Option Value → Run → Ending) :
    (ending.andThen go).andThen go' =
      ending.andThen fun value next => (go value next).andThen go' := by
  rcases ending.normal_or_andThen_eq with ⟨value, next, rfl⟩ | ⟨-, hself⟩
  · rfl
  · rw [hself, hself, hself]

/-- Continuations need to agree only on the state in which they are entered.  So
a fact about the state after a normal completion may be used in proving that
they agree. -/
theorem andThen_congr {ending : Ending} {go go' : Option Value → Run → Ending}
    (h : ∀ value next, ending = (.ok (.normal value), next) → go value next = go' value next) :
    ending.andThen go = ending.andThen go' := by
  rcases ending.normal_or_andThen_eq with ⟨value, next, rfl⟩ | ⟨-, hself⟩
  · exact h value next rfl
  · rw [hself, hself]

theorem andThen_eq_normal {ending : Ending} {go : Option Value → Run → Ending}
    {value : Option Value} {final : Run} (h : ending.andThen go = (.ok (.normal value), final)) :
    ∃ mid next, ending = (.ok (.normal mid), next) ∧
      go mid next = (.ok (.normal value), final) := by
  rcases ending.normal_or_andThen_eq with ⟨mid, next, rfl⟩ | ⟨hne, hself⟩
  · exact ⟨mid, next, rfl, h⟩
  · rw [hself] at h
    exact absurd (congrArg Prod.fst h) (hne value)

end Ending

/-! ## Single actions and steps -/

namespace Action

/-- What running an action can do: its value fails and nothing else happens, an
assignment binds its value, or a return hands its value on.  Later modules split
on this lemma and do not open the definition of a run. -/
theorem run_cases (scope : ScopeId) (position : Nat) (a : Action) (run : Run) :
    (∃ e, a.value.evaluate run.scopes scope = .error e ∧
        a.run scope position run = (.error e, run.begin position a)) ∨
      (∃ target expr value, a = .assign target expr ∧
        expr.evaluate run.scopes scope = .ok value ∧
        a.run scope position run =
          (.ok (.normal (some value)), (run.begin position a).declare scope target value)) ∨
      ∃ expr value, a = .ret expr ∧ expr.evaluate run.scopes scope = .ok value ∧
        a.run scope position run = (.ok (.returned value), run.begin position a) := by
  cases h : a.value.evaluate run.scopes scope with
  | error e => exact Or.inl ⟨e, rfl, by simp [Action.run, Run.begin, h]⟩
  | ok value =>
      cases a with
      | assign target expr =>
          refine Or.inr (Or.inl ⟨target, expr, value, rfl, h, ?_⟩)
          simp [Action.run, Run.begin, h]
      | ret expr =>
          refine Or.inr (Or.inr ⟨expr, value, rfl, h, ?_⟩)
          simp [Action.run, Run.begin, h]

/-- An action that runs is recorded, whatever its outcome. -/
theorem started_run (scope : ScopeId) (position : Nat) (a : Action) (run : Run) :
    (a.run scope position run).2.started = run.started.push ⟨position, a⟩ := by
  rcases run_cases scope position a run with
    ⟨e, -, hrun⟩ | ⟨target, expr, value, -, -, hrun⟩ | ⟨expr, value, -, -, hrun⟩ <;>
  · rw [hrun]
    rfl

/-- An action creates no scope. -/
theorem size_run (scope : ScopeId) (position : Nat) (a : Action) (run : Run) :
    (a.run scope position run).2.scopes.size = run.scopes.size := by
  rcases run_cases scope position a run with
    ⟨e, -, hrun⟩ | ⟨target, expr, value, -, -, hrun⟩ | ⟨expr, value, -, -, hrun⟩
  · rw [hrun]
    rfl
  · rw [hrun]
    exact ScopeTree.size_declare ..
  · rw [hrun]
    rfl

/-- Only a return returns, and a return never completes normally. -/
theorem isReturn_of_run {scope : ScopeId} {position : Nat} {a : Action} {run next : Run}
    {c : Completion} (h : a.run scope position run = (.ok c, next)) :
    a.isReturn = true ↔ ∃ value, c = .returned value := by
  rcases run_cases scope position a run with
    ⟨e, -, hrun⟩ | ⟨target, expr, value, rfl, -, hrun⟩ | ⟨expr, value, rfl, -, hrun⟩
  · rw [hrun] at h
    cases h
  · rw [hrun] at h
    cases h
    simp [isReturn]
  · rw [hrun] at h
    cases h
    simp [isReturn]

end Action

namespace Step

/-- One step of a run: opening a block completes normally and has no value. -/
def run (scopeOf : Site → ScopeId) : Step → Run → Ending
  | .enter site, state => (.ok (.normal none), state.enter (scopeOf site))
  | .act site vertex, state => vertex.action.run (scopeOf site) vertex.position state

/-- Steps one after the other until one returns or fails. -/
def runAll (scopeOf : Site → ScopeId) (last : Option Value) : List Step → Run → Ending
  | [], state => (.ok (.normal last), state)
  | step :: rest, state =>
    (step.run scopeOf state).andThen fun value next => runAll scopeOf value rest next

/-- All steps of a sequence complete normally, and lead from one state to
another.  Stated as a relation between states, so that a run can be cut at any
step and both halves are again of this form. -/
inductive Completes (scopeOf : Site → ScopeId) : List Step → Run → Run → Prop where
  | nil (state : Run) : Completes scopeOf [] state state
  | cons {step : Step} {rest : List Step} {state next final : Run} {value : Option Value} :
      step.run scopeOf state = (.ok (.normal value), next) →
      Completes scopeOf rest next final → Completes scopeOf (step :: rest) state final

variable {scopeOf : Site → ScopeId}

theorem runAll_cons (last : Option Value) (step : Step) (rest : List Step) (state : Run) :
    runAll scopeOf last (step :: rest) state =
      (step.run scopeOf state).andThen fun value next => runAll scopeOf value rest next := rfl

theorem runAll_append (xs ys : List Step) :
    ∀ (last : Option Value) (state : Run),
      runAll scopeOf last (xs ++ ys) state =
        (runAll scopeOf last xs state).andThen fun value next => runAll scopeOf value ys next := by
  induction xs with
  | nil => intro last state; rfl
  | cons step rest ih =>
      intro last state
      rw [List.cons_append, runAll_cons, runAll_cons, Ending.andThen_assoc]
      exact Ending.andThen_congr fun value next _ => ih value next

/-- What comes behind a return does not matter.  Dead code can therefore be
taken out, or replaced, without a run noticing. -/
theorem runAll_of_return {r : Occurrence} (hr : r.action.isReturn = true) (before : List Step)
    (site : Site) (after after' : List Step) (last : Option Value) (state : Run) :
    runAll scopeOf last (before ++ .act site r :: after) state =
      runAll scopeOf last (before ++ .act site r :: after') state := by
  rw [runAll_append, runAll_append]
  refine Ending.andThen_congr fun value mid _ => ?_
  rw [runAll_cons, runAll_cons]
  -- A return never completes normally, so the two continuations are never compared.
  refine Ending.andThen_congr fun value' next hstep => ?_
  obtain ⟨_, hreturned⟩ := (Action.isReturn_of_run hstep).mp hr
  cases hreturned

/-- A run of steps completes them all, or it ends with the first action that
returns or fails.  Opening a block always completes, so the last step of such a
run is an action. -/
theorem runAll_cases (steps : List Step) :
    ∀ (last : Option Value) (state : Run),
      (∃ value final, runAll scopeOf last steps state = (.ok (.normal value), final) ∧
          Completes scopeOf steps state final) ∨
        ∃ before site vertex after mid,
          steps = before ++ .act site vertex :: after ∧ Completes scopeOf before state mid ∧
            runAll scopeOf last steps state =
              vertex.action.run (scopeOf site) vertex.position mid ∧
            ∀ value, (runAll scopeOf last steps state).1 ≠ .ok (.normal value) := by
  induction steps with
  | nil => intro last state; exact Or.inl ⟨last, state, rfl, .nil state⟩
  | cons step rest ih =>
      intro last state
      rw [runAll_cons]
      rcases (step.run scopeOf state).normal_or_andThen_eq with ⟨value, next, hstep⟩ | ⟨hne, hself⟩
      · rw [hstep, Ending.andThen_normal]
        rcases ih value next with
          ⟨value', final, hrun, hall⟩ | ⟨before, site, vertex, after, mid, rfl, hbefore, hrun, hne⟩
        · exact Or.inl ⟨value', final, hrun, .cons hstep hall⟩
        · exact Or.inr
            ⟨step :: before, site, vertex, after, mid, rfl, .cons hstep hbefore, hrun, hne⟩
      · -- The first step is the one that ends the run, so it is an action.
        rw [hself]
        cases step with
        | enter site => exact absurd rfl (hne none)
        | act site vertex => exact Or.inr ⟨[], site, vertex, rest, state, rfl, .nil state, rfl, hne⟩

namespace Completes

/-- Completed actions have been recorded in order. -/
theorem started_eq {steps : List Step} {state final : Run}
    (h : Completes scopeOf steps state final) :
    final.started.toList = state.started.toList ++ vertices steps := by
  induction h with
  | nil state => simp
  | @cons step rest state next final value hstep _ ih =>
      rw [ih]
      cases step with
      | enter site =>
          cases hstep
          rfl
      | act site vertex =>
          have hrun : vertex.action.run (scopeOf site) vertex.position state = _ := hstep
          have hstarted := Action.started_run (scopeOf site) vertex.position vertex.action state
          rw [hrun] at hstarted
          simp only at hstarted
          rw [hstarted, vertices_act, Array.toList_push, List.append_assoc]
          rfl

/-- What completes normally is no return. -/
theorem isReturn_eq_false {steps : List Step} {state final : Run}
    (h : Completes scopeOf steps state final) :
    ∀ v ∈ vertices steps, v.action.isReturn = false := by
  induction h with
  | nil state => simp
  | @cons step rest state next final value hstep _ ih =>
      cases step with
      | enter site => exact ih
      | act site vertex =>
          intro v hv
          rcases List.mem_cons.mp hv with rfl | hv
          · have hiff := Action.isReturn_of_run (show v.action.run _ _ _ = _ from hstep)
            rw [Bool.eq_false_iff, ne_eq, hiff]
            simp
          · exact ih v hv

end Completes

end Step

namespace Stmt

open Step

theorem runAll_cons (scope : ScopeId) (position : Nat) (last : Option Value) (s : Stmt)
    (rest : List Stmt) (state : Run) :
    Stmt.runAll scope position last (s :: rest) state =
      Ending.andThen (s.run scope position state) fun value next =>
        Stmt.runAll scope (position + s.actionCount) value rest next := by
  rw [Stmt.runAll]
  rcases s.run scope position state with ⟨e | (value | value), next⟩ <;> rfl

/-- Running a statement is running its steps.  The numbers of its blocks fit as
long as the tree has as many scopes as the numbering says, and a normal
completion leaves it so.

Unlike resolution, a run that stops early leaves fewer scopes than the numbering
says.  That is harmless, since no step follows it; so the claim about the size
is made for normal completion alone. -/
theorem run_eq_runAll (start size : Nat) :
    (∀ (s : Stmt) (site : Site) (block position : Nat) (last : Option Value) (state : Run),
        state.scopes.size = size + block →
        s.run (site.scope start size) position state =
            Step.runAll (Site.scope start size) last (s.trailAt site block position) state ∧
          ∀ value next, s.run (site.scope start size) position state =
              (.ok (.normal value), next) →
            next.scopes.size = size + (block + s.blockCount)) ∧
      (∀ (body : List Stmt) (site : Site) (block position : Nat) (last : Option Value)
        (state : Run), state.scopes.size = size + block →
        Stmt.runAll (site.scope start size) position last body state =
            Step.runAll (Site.scope start size) last (trailOf site block position body) state ∧
          ∀ value next, Stmt.runAll (site.scope start size) position last body state =
              (.ok (.normal value), next) →
            next.scopes.size = size + (block + blockCountOf body)) := by
  refine Stmt.induction ?action ?block ?nil ?cons
  case action =>
    intro a site block position last state hsize
    rw [Stmt.run, trailAt_action, Step.runAll_cons]
    refine ⟨(Ending.andThen_self _).symm, fun value next hrun => ?_⟩
    have hstate := Action.size_run (site.scope start size) position a state
    rw [hrun] at hstate
    simp only at hstate
    rw [hstate, hsize, blockCount_action, Nat.add_zero]
  case block =>
    intro body ih site block position last state hsize
    have henter : (state.enter (site.scope start size)).scopes.size = size + (block + 1) := by
      show (state.scopes.create _).size = _
      rw [ScopeTree.size_create, hsize, Nat.add_assoc]
    have hbody := ih (.block block) (block + 1) position none _ henter
    -- The scope to be created is the one that the site of this block stands for.
    rw [Stmt.run, trailAt_block, Step.runAll_cons, hsize]
    refine ⟨hbody.1, fun value next hrun => ?_⟩
    rw [hbody.2 value next hrun, blockCount_block]
    omega
  case nil =>
    intro site block position last state hsize
    rw [Stmt.runAll, trailOf_nil]
    refine ⟨rfl, fun value next hrun => ?_⟩
    cases hrun
    rw [hsize, blockCountOf_nil, Nat.add_zero]
  case cons =>
    intro s rest ihs ihrest site block position last state hsize
    obtain ⟨hs, hnext⟩ := ihs site block position last state hsize
    rw [runAll_cons, trailOf_cons, Step.runAll_append, ← hs]
    -- The rest is run only after a normal completion, and only then its numbers have to fit.
    refine ⟨Ending.andThen_congr fun value next hrun => ?_, fun value final hrun => ?_⟩
    · exact (ihrest site _ _ value next (hnext value next hrun)).1
    · obtain ⟨mid, next, hfirst, hlater⟩ := Ending.andThen_eq_normal hrun
      rw [(ihrest site _ _ mid next (hnext mid next hfirst)).2 value final hlater,
        blockCountOf_cons]
      omega

/-- Running a program is running its trail. -/
theorem execute_eq_runAll (program : Stmt) (env : Environment) (scope : ScopeId) :
    program.execute env scope =
      Step.runAll (Site.scope scope env.size) none program.trail (.start env) :=
  ((run_eq_runAll scope env.size).1 program .outer 0 0 none (.start env) rfl).1

/-- An evaluation fails if the run does, and with the same error. -/
theorem execute_of_evaluate_error {program : Stmt} {env : Environment} {scope : ScopeId}
    {e : EvalError} (h : (program.evaluate env scope).1 = .error e) :
    (program.execute env scope).1 = .error e := by
  unfold evaluate at h
  cases hrun : (program.execute env scope).1 with
  | error e' =>
      simp only [hrun, Except.map] at h
      cases h
      rfl
  | ok completion =>
      simp only [hrun, Except.map] at h
      cases h

theorem execute_of_evaluate_ok {program : Stmt} {env : Environment} {scope : ScopeId}
    {value : Option Value} (h : (program.evaluate env scope).1 = .ok value) :
    ∃ completion, (program.execute env scope).1 = .ok completion := by
  unfold evaluate at h
  cases hrun : (program.execute env scope).1 with
  | error e =>
      simp only [hrun, Except.map] at h
      cases h
  | ok completion => exact ⟨completion, rfl⟩

/-! ## Execution against the flow graph -/

/-- A run gets as far as an action: the steps before it complete, and its
expression has the given result in the state that they leave.  The result may be
an error, so this covers the action on which a run fails as well as the return
that ends it. -/
def Reaches (program : Stmt) (env : Environment) (scope : ScopeId) (before : List Step)
    (vertex : Occurrence) (result : Except EvalError Value) : Prop :=
  ∃ site after mid, program.trail = before ++ .act site vertex :: after ∧
    Step.Completes (Site.scope scope env.size) before (.start env) mid ∧
    vertex.action.value.evaluate mid.scopes (site.scope scope env.size) = result

/-- What a run gets as far as is on the path of live actions, and no return is
before it.  The steps before have completed, and a return never does. -/
theorem Reaches.live {program : Stmt} {env : Environment} {scope : ScopeId} {before : List Step}
    {vertex : Occurrence} {result : Except EvalError Value}
    (h : program.Reaches env scope before vertex result) :
    (∀ v ∈ vertices before, v.action.isReturn = false) ∧
      ∃ rest, program.occurrences = vertices before ++ vertex :: rest ∧
        program.live = vertices before ++ upToReturn (vertex :: rest) := by
  obtain ⟨site, after, mid, hsplit, hbefore, -⟩ := h
  have hnone := hbefore.isReturn_eq_false
  have hoccurrences : program.occurrences = vertices before ++ vertex :: vertices after := by
    rw [← vertices_trail, hsplit, vertices_append, vertices_act]
  refine ⟨hnone, vertices after, hoccurrences, ?_⟩
  rw [Stmt.live, hoccurrences, upToReturn_append_of_forall hnone]

/-- How a run ends: all steps complete, or an action fails, or a return is
executed.  In the last two cases that action is the last one started. -/
theorem execute_cases (program : Stmt) (env : Environment) (scope : ScopeId) :
    (∃ value final, program.execute env scope = (.ok (.normal value), final) ∧
        Step.Completes (Site.scope scope env.size) program.trail (.start env) final) ∨
      ∃ before vertex,
        (program.execute env scope).2.started.toList = vertices before ++ [vertex] ∧
        ((∃ e, (program.execute env scope).1 = .error e ∧
            program.Reaches env scope before vertex (.error e)) ∨
          ∃ value, (program.execute env scope).1 = .ok (.returned value) ∧
            vertex.action.isReturn = true ∧
            program.Reaches env scope before vertex (.ok value)) := by
  rw [execute_eq_runAll]
  rcases Step.runAll_cases program.trail none (.start env) with
    hall | ⟨before, site, vertex, after, mid, hsplit, hbefore, hrun, hne⟩
  · exact Or.inl hall
  · refine Or.inr ⟨before, vertex, ?_, ?_⟩
    · rw [hrun, Action.started_run, Array.toList_push, hbefore.started_eq]
      rfl
    · rw [hrun] at hne ⊢
      rcases Action.run_cases (site.scope scope env.size) vertex.position vertex.action mid with
        ⟨e, heval, hend⟩ | ⟨target, expr, value, -, -, hend⟩ | ⟨expr, value, hret, heval, hend⟩
      · rw [hend]
        exact Or.inl ⟨e, rfl, site, after, mid, hsplit, hbefore, heval⟩
      · -- An assignment that succeeds would not have ended the run.
        rw [hend] at hne
        exact absurd rfl (hne (some value))
      · rw [hend]
        have hvalue : vertex.action.value = expr := by rw [hret]; rfl
        refine Or.inr ⟨value, rfl, by rw [hret]; rfl, site, after, mid, hsplit, hbefore, ?_⟩
        rw [hvalue]
        exact heval

/-- A run that completes all steps has started all actions, and none of them is a return. -/
theorem started_of_completes {program : Stmt} {env : Environment} {scope : ScopeId} {final : Run}
    (h : Step.Completes (Site.scope scope env.size) program.trail (.start env) final) :
    (∀ v ∈ program.occurrences, v.action.isReturn = false) ∧
      final.started.toList = program.live := by
  have hnone : ∀ v ∈ program.occurrences, v.action.isReturn = false := by
    rw [← vertices_trail]
    exact h.isReturn_eq_false
  refine ⟨hnone, ?_⟩
  rw [h.started_eq, vertices_trail, live, upToReturn_of_forall hnone]
  rfl

/-- The return that a run gets to is the first one, and ends the path of live
actions.  So there is no choice left about which return gives the value of a
program. -/
theorem Reaches.of_return {program : Stmt} {env : Environment} {scope : ScopeId}
    {before : List Step} {r : Occurrence} {result : Except EvalError Value}
    (h : program.Reaches env scope before r result) (hr : r.action.isReturn = true) :
    program.live = vertices before ++ [r] ∧
      program.occurrences.find? (·.action.isReturn) = some r := by
  obtain ⟨hbefore, rest, hoccurrences, hlive⟩ := h.live
  refine ⟨by rw [hlive, upToReturn_cons_of_return hr], ?_⟩
  rw [hoccurrences]
  exact List.find?_eq_some_iff_append.mpr
    ⟨hr, vertices before, rest, rfl, fun v hv => by simp [hbefore v hv]⟩

/-- A run starts live actions only, in their order, and skips none.  It is a
prefix and not a subset: what a run has done is told by how far it came. -/
theorem started_isPrefix (program : Stmt) (env : Environment) (scope : ScopeId) :
    (program.execute env scope).2.started.toList <+: program.live := by
  rcases program.execute_cases env scope with
    ⟨value, final, hrun, hall⟩ | ⟨before, vertex, hstarted, hend⟩
  · refine ⟨[], ?_⟩
    rw [List.append_nil, hrun]
    exact (started_of_completes hall).2
  · have hreaches : ∃ result, program.Reaches env scope before vertex result := by
      rcases hend with ⟨e, -, hreaches⟩ | ⟨value, -, -, hreaches⟩
      · exact ⟨_, hreaches⟩
      · exact ⟨_, hreaches⟩
    obtain ⟨result, hreaches⟩ := hreaches
    obtain ⟨-, rest, -, hlive⟩ := hreaches.live
    rw [hstarted, hlive, List.prefix_append_right_inj, upToReturn]
    split
    · exact List.prefix_rfl
    · exact ⟨_, rfl⟩

/-- A run without error starts all live actions, and it returns exactly if there is a return. -/
theorem started_of_ok {program : Stmt} {env : Environment} {scope : ScopeId}
    {completion : Completion} (h : (program.execute env scope).1 = .ok completion) :
    (program.execute env scope).2.started.toList = program.live ∧
      ((∃ value, completion = .returned value) ↔ ∃ a ∈ program.actions, a.isReturn = true) := by
  rw [exists_return_iff]
  rcases program.execute_cases env scope with
    ⟨value, final, hrun, hall⟩ |
      ⟨before, vertex, hstarted, ⟨e, hrun, -⟩ | ⟨value, hrun, hret, hreaches⟩⟩
  · obtain ⟨hnone, hstarted⟩ := started_of_completes hall
    rw [hrun] at h ⊢
    cases h
    refine ⟨hstarted, ?_⟩
    constructor
    · rintro ⟨value, hvalue⟩
      cases hvalue
    · rintro ⟨v, hv, hret⟩
      rw [hnone v hv] at hret
      cases hret
  · rw [hrun] at h
    cases h
  · obtain ⟨hlive, hfirst⟩ := hreaches.of_return hret
    rw [hrun] at h
    cases h
    rw [hstarted, hlive]
    exact ⟨rfl, fun _ => ⟨vertex, List.mem_of_find?_eq_some hfirst, hret⟩, fun _ => ⟨value, rfl⟩⟩

/-- The value of a run that returns is that of the first return. -/
theorem reaches_of_returned {program : Stmt} {env : Environment} {scope : ScopeId} {value : Value}
    (h : (program.execute env scope).1 = .ok (.returned value)) :
    ∃ before r, program.occurrences.find? (·.action.isReturn) = some r ∧
      program.Reaches env scope before r (.ok value) := by
  rcases program.execute_cases env scope with
    ⟨_, final, hrun, -⟩ | ⟨before, vertex, -, ⟨e, hrun, -⟩ | ⟨value', hrun, hret, hreaches⟩⟩
  · rw [hrun] at h
    cases h
  · rw [hrun] at h
    cases h
  · rw [hrun] at h
    cases h
    exact ⟨before, vertex, (hreaches.of_return hret).2, hreaches⟩

/-- A run fails on the last action that it starts, all steps before it completed. -/
theorem reaches_of_error {program : Stmt} {env : Environment} {scope : ScopeId} {e : EvalError}
    (h : (program.execute env scope).1 = .error e) :
    ∃ before failed,
      (program.execute env scope).2.started.toList = vertices before ++ [failed] ∧
        program.Reaches env scope before failed (.error e) := by
  rcases program.execute_cases env scope with
    ⟨value, final, hrun, -⟩ | ⟨before, vertex, hstarted, ⟨e', hrun, hreaches⟩ | ⟨value, hrun, -⟩⟩
  · rw [hrun] at h
    cases h
  · rw [hrun] at h
    cases h
    exact ⟨before, vertex, hstarted, hreaches⟩
  · rw [hrun] at h
    cases h

/-- **Execution follows the flow graph.**  The actions that a run starts are a prefix of the
reachable vertices in their order, and all of them if the run does not fail.  A run without error
ends by a return exactly if the program has one, and then its value is the one of the first return,
all steps before it completed.  A run with an error has completed all steps but the last one, whose
expression has that error. -/
theorem execute_follows_flow (program : Stmt) (env : Environment) (scope : ScopeId) :
    (program.execute env scope).2.started.toList <+: program.flow.reachability.reachable ∧
      (∀ completion, (program.execute env scope).1 = .ok completion →
        (program.execute env scope).2.started.toList = program.flow.reachability.reachable ∧
          ((∃ value, completion = .returned value) ↔ ∃ a ∈ program.actions, a.isReturn = true) ∧
          ∀ value, completion = .returned value → ∃ before r,
            program.occurrences.find? (·.action.isReturn) = some r ∧
              program.Reaches env scope before r (.ok value)) ∧
      ∀ e, (program.execute env scope).1 = .error e → ∃ before failed,
        (program.execute env scope).2.started.toList = vertices before ++ [failed] ∧
          program.Reaches env scope before failed (.error e) := by
  rw [reachable_flow]
  refine ⟨program.started_isPrefix env scope, ?_, fun e => reaches_of_error⟩
  intro completion hok
  obtain ⟨hstarted, hreturns⟩ := started_of_ok hok
  refine ⟨hstarted, hreturns, fun value hvalue => ?_⟩
  rw [hvalue] at hok
  exact reaches_of_returned hok

/-- A run that fails in an inner block: the division is the last action of the run, and the return
behind it has not been started. -/
theorem execute_follows_flow_of_division :
    let program : Stmt := .block [
      .assign "x" (.literal (.int 0)),
      .block [.assign "y" (.binary .intDiv (.literal (.int 1)) (.variable "x"))],
      .ret (.variable "x")]
    (program.execute .withRoot 0).1 = .error (.divisionByZero .intDiv) ∧
      ∃ before failed,
        (program.execute .withRoot 0).2.started.toList = vertices before ++ [failed] ∧
        program.Reaches .withRoot 0 before failed (.error (.divisionByZero .intDiv)) := by
  intro program
  have houtcome : (program.execute .withRoot 0).1 = .error (.divisionByZero .intDiv) := by
    rfl
  exact ⟨houtcome, (execute_follows_flow program .withRoot 0).2.2 _ houtcome⟩

end Stmt

end StraightLine
