import StraightLine.Proofs.ScopeTree
import StraightLine.Proofs.Trail
import StraightLine.Resolution

/-!
# Resolution along the trail

Resolving the names of a program is checking the steps of its trail one after the other.  A step
records the reads of its action that are not visible, in text order, and nothing is ever taken back.

## Main definitions

* `Expr.missing` — the reads of an expression that are not visible from a scope.
* `Step.resolve`, `Step.resolveAll` — the pass over one step, and over a sequence.

## Main statements

* `Expr.resolve_spec` — an expression records its missing reads, and resolves if there are none.
* `Step.resolveAll_spec` — a sequence records only reads of its own actions, and resolves if it
  records nothing.
* `Stmt.resolve_eq_resolveAll` — resolving a program is resolving its trail.

## Design notes

* `Expr.missing` does not depend on what the scopes hold, so the same list says what resolution
  records and what an evaluation trips over.
* **The verdict is redundant.**  It is stated next to the recorded reads in every lemma; after
  `Step.resolveAll_spec` only the reads are reasoned about.
-/

namespace StraightLine

/-! ## Expressions -/

namespace Expr

/-- The reads of an expression that cannot be seen from a scope, left to right,
repeats kept.  Only visibility enters, so the definition serves trees of
declarations and environments alike. -/
def missing {α : Type} (scopes : ScopeTree α) (scope : ScopeId) (e : Expr) : List String :=
  e.reads.filter fun name => !scopes.contains scope name

variable {α : Type} {scopes : ScopeTree α} {scope : ScopeId}

@[simp] theorem missing_literal (v : Value) : (literal v).missing scopes scope = [] := rfl

theorem missing_variable_of_contains {name : String} (h : scopes.contains scope name = true) :
    (Expr.variable name).missing scopes scope = [] := by
  simp [missing, h]

theorem missing_variable_of_not_contains {name : String} (h : scopes.contains scope name = false) :
    (Expr.variable name).missing scopes scope = [name] := by
  simp [missing, h]

@[simp] theorem missing_binary (op : Operator) (left right : Expr) :
    (binary op left right).missing scopes scope =
      left.missing scopes scope ++ right.missing scopes scope :=
  List.filter_append ..

theorem mem_reads_of_mem_missing {e : Expr} {name : String} (h : name ∈ e.missing scopes scope) :
    name ∈ e.reads :=
  (List.mem_filter.mp h).1

/-- Two trees in which the same names are visible miss the same reads.  The
trees may hold different things: this is the one place where a resolution pass
and an evaluation meet. -/
theorem missing_congr {β : Type} {scopes' : ScopeTree β} {scope' : ScopeId}
    (h : ∀ name, scopes.contains scope name = scopes'.contains scope' name) (e : Expr) :
    e.missing scopes scope = e.missing scopes' scope' := by
  unfold missing
  exact List.filter_congr fun name _ => by rw [h name]

end Expr

namespace Resolver

@[simp] theorem unresolvedReads_start (scopes : Declarations) :
    (start scopes).unresolvedReads = [] := rfl

theorem unresolvedReads_miss (r : Resolver) (read : Read) :
    (r.miss read).unresolvedReads = r.unresolvedReads ++ [read] := by
  simp [miss, unresolvedReads]

@[simp] theorem unresolvedReads_declare (r : Resolver) (scope : ScopeId) (name : String) :
    (r.declare scope name).unresolvedReads = r.unresolvedReads := by
  simp [declare, unresolvedReads]

@[simp] theorem unresolvedReads_enter (r : Resolver) (scope : ScopeId) :
    (r.enter scope).unresolvedReads = r.unresolvedReads := rfl

@[simp] theorem size_enter (r : Resolver) (scope : ScopeId) :
    (r.enter scope).scopes.size = r.scopes.size + 1 :=
  ScopeTree.size_create ..

/-- The scope of a block exists once the block is entered. -/
theorem lt_size_enter (r : Resolver) (scope : ScopeId) :
    r.scopes.size < (r.enter scope).scopes.size := by
  rw [size_enter]
  exact Nat.lt_succ_self _

end Resolver

namespace Expr

/-- Checking an expression leaves the scopes alone, records the missing reads,
and succeeds if there are none.  A read that fails does not stop the check, so
all of them are recorded. -/
theorem resolve_spec (scope : ScopeId) (position : Nat) (e : Expr) :
    ∀ r : Resolver, (e.resolve scope position r).2.scopes = r.scopes ∧
      (e.resolve scope position r).2.unresolvedReads =
        r.unresolvedReads ++ (e.missing r.scopes scope).map (⟨·, position⟩) ∧
      ((e.resolve scope position r).1 = true ↔ e.missing r.scopes scope = []) := by
  induction e with
  | literal v => intro r; simp [resolve]
  | «variable» name =>
      intro r
      rw [resolve]
      cases h : r.scopes.contains scope name with
      | true => simp [missing_variable_of_contains h]
      | false =>
          rw [missing_variable_of_not_contains h]
          exact ⟨rfl, r.unresolvedReads_miss _, by simp⟩
  | binary op left right ihl ihr =>
      intro r
      obtain ⟨hscopes, hreads, hvalid⟩ := ihl r
      obtain ⟨hscopes', hreads', hvalid'⟩ := ihr (left.resolve scope position r).2
      rw [hscopes] at hreads' hvalid'
      rw [missing_binary]
      refine ⟨hscopes'.trans hscopes, ?_, ?_⟩
      · show (right.resolve scope position (left.resolve scope position r).2).2.unresolvedReads = _
        rw [hreads', hreads, List.map_append, List.append_assoc]
      · show ((left.resolve scope position r).1 &&
          (right.resolve scope position (left.resolve scope position r).2).1) = true ↔ _
        rw [Bool.and_eq_true, hvalid, hvalid', List.append_eq_nil_iff]

end Expr

namespace Action

/-- The declarations after an action: its target, if it has one. -/
def declareIn (scope : ScopeId) (scopes : Declarations) : Action → Declarations
  | .assign target _ => scopes.declare scope target ()
  | .ret _ => scopes

/-- Checking an action records the missing reads of its value, and then declares
its target.  The target is declared even if a read failed, and always behind the
reads, so an initialiser does not see its own target. -/
theorem resolve_spec (scope : ScopeId) (position : Nat) (a : Action) (r : Resolver) :
    (a.resolve scope position r).2.scopes = a.declareIn scope r.scopes ∧
      (a.resolve scope position r).2.unresolvedReads =
        r.unresolvedReads ++ (a.value.missing r.scopes scope).map (⟨·, position⟩) ∧
      ((a.resolve scope position r).1 = true ↔ a.value.missing r.scopes scope = []) := by
  obtain ⟨hscopes, hreads, hvalid⟩ := a.value.resolve_spec scope position r
  cases a with
  | assign target value =>
      refine ⟨?_, ?_, hvalid⟩
      · show (value.resolve scope position r).2.scopes.declare scope target () = _
        rw [show (value.resolve scope position r).2.scopes = r.scopes from hscopes]
        rfl
      · show ((value.resolve scope position r).2.declare scope target).unresolvedReads = _
        rw [Resolver.unresolvedReads_declare]
        exact hreads
  | ret value => exact ⟨hscopes, hreads, hvalid⟩

end Action

/-! ## Steps -/

namespace Step

/-- One step of a resolution pass. -/
def resolve (scopeOf : Site → ScopeId) : Step → Resolver → Bool × Resolver
  | .enter site, r => (true, r.enter (scopeOf site))
  | .act site vertex, r => vertex.action.resolve (scopeOf site) vertex.position r

/-- Steps one after the other, none of which stops the pass. -/
def resolveAll (scopeOf : Site → ScopeId) : List Step → Resolver → Bool × Resolver
  | [], r => (true, r)
  | step :: rest, r =>
    let (valid, r) := step.resolve scopeOf r
    let (restValid, r) := resolveAll scopeOf rest r
    (valid && restValid, r)

variable {scopeOf : Site → ScopeId}

theorem resolveAll_cons (step : Step) (rest : List Step) (r : Resolver) :
    resolveAll scopeOf (step :: rest) r =
      ((step.resolve scopeOf r).1 && (resolveAll scopeOf rest (step.resolve scopeOf r).2).1,
        (resolveAll scopeOf rest (step.resolve scopeOf r).2).2) := rfl

theorem resolveAll_append (xs ys : List Step) :
    ∀ r, resolveAll scopeOf (xs ++ ys) r =
      ((resolveAll scopeOf xs r).1 && (resolveAll scopeOf ys (resolveAll scopeOf xs r).2).1,
        (resolveAll scopeOf ys (resolveAll scopeOf xs r).2).2) := by
  induction xs with
  | nil => intro r; simp [resolveAll]
  | cons step rest ih =>
      intro r
      rw [List.cons_append, resolveAll_cons, ih, resolveAll_cons, Bool.and_assoc]

/-- One step records reads of its own action, and resolves if it records nothing. -/
theorem resolve_spec (scopeOf : Site → ScopeId) (step : Step) (r : Resolver) :
    ∃ missed, (step.resolve scopeOf r).2.unresolvedReads = r.unresolvedReads ++ missed ∧
      ((step.resolve scopeOf r).1 = true ↔ missed = []) ∧
      ∀ read ∈ missed, ∃ v ∈ step.vertex?,
        v.position = read.position ∧ read.name ∈ v.action.value.reads := by
  cases step with
  | enter site => exact ⟨[], by simp [resolve], by simp [resolve], by simp⟩
  | act site v =>
      obtain ⟨-, hreads, hvalid⟩ := v.action.resolve_spec (scopeOf site) v.position r
      refine ⟨_, hreads, ?_, ?_⟩
      · rw [List.map_eq_nil_iff]
        exact hvalid
      · intro read hread
        obtain ⟨name, hname, rfl⟩ := List.mem_map.mp hread
        exact ⟨v, rfl, rfl, Expr.mem_reads_of_mem_missing hname⟩

/-- A sequence of steps records reads of its own actions, and resolves if it
records nothing.  Nothing recorded is ever taken back: the reads so far are the
beginning of those at the end. -/
theorem resolveAll_spec (steps : List Step) :
    ∀ r, ∃ missed,
      (resolveAll scopeOf steps r).2.unresolvedReads = r.unresolvedReads ++ missed ∧
      ((resolveAll scopeOf steps r).1 = true ↔ missed = []) ∧
      ∀ read ∈ missed, ∃ v ∈ vertices steps,
        v.position = read.position ∧ read.name ∈ v.action.value.reads := by
  induction steps with
  | nil => intro r; exact ⟨[], by simp [resolveAll], by simp [resolveAll], by simp⟩
  | cons step rest ih =>
      intro r
      obtain ⟨first, hreads, hvalid, hfirst⟩ := step.resolve_spec scopeOf r
      obtain ⟨later, hreads', hvalid', hlater⟩ := ih (step.resolve scopeOf r).2
      rw [resolveAll_cons]
      refine ⟨first ++ later, ?_, ?_, ?_⟩
      · rw [hreads', hreads, List.append_assoc]
      · rw [Bool.and_eq_true, hvalid, hvalid', List.append_eq_nil_iff]
      · intro read hread
        rcases List.mem_append.mp hread with hread | hread
        · obtain ⟨v, hv, hread⟩ := hfirst read hread
          exact ⟨v, List.mem_filterMap.mpr ⟨step, List.mem_cons_self, hv⟩, hread⟩
        · obtain ⟨v, hv, hread⟩ := hlater read hread
          have hsub : vertices rest ⊆ vertices (step :: rest) := by
            intro w hw
            rw [← List.singleton_append, vertices_append]
            exact List.mem_append_right _ hw
          exact ⟨v, hsub hv, hread⟩

end Step

/-! ## Programs -/

namespace Stmt

open Step

theorem size_resolve_action (scope : ScopeId) (position : Nat) (a : Action) (r : Resolver) :
    (a.resolve scope position r).2.scopes.size = r.scopes.size := by
  rw [(a.resolve_spec scope position r).1]
  cases a with
  | assign target value => exact ScopeTree.size_declare ..
  | ret value => rfl

/-- Resolving a statement is resolving its steps.  The numbers of its blocks fit
as long as the tree has as many scopes as the numbering says, and the pass
leaves it so.

The hypothesis on the size is what ties the scopes of the nested pass, which are
counted in the tree, to the sites of the trail, which are counted in the text. -/
theorem resolveAt_eq_resolveAll (start size : Nat) :
    (∀ (s : Stmt) (site : Site) (block position : Nat) (r : Resolver),
        r.scopes.size = size + block →
        s.resolveAt (site.scope start size) position r =
            Step.resolveAll (Site.scope start size) (s.trailAt site block position) r ∧
          (s.resolveAt (site.scope start size) position r).2.scopes.size =
            size + (block + s.blockCount)) ∧
      (∀ (body : List Stmt) (site : Site) (block position : Nat) (valid : Bool) (r : Resolver),
        r.scopes.size = size + block →
        Stmt.resolveAll (site.scope start size) position valid body r =
            (valid && (Step.resolveAll (Site.scope start size)
                (trailOf site block position body) r).1,
              (Step.resolveAll (Site.scope start size) (trailOf site block position body) r).2) ∧
          (Stmt.resolveAll (site.scope start size) position valid body r).2.scopes.size =
            size + (block + blockCountOf body)) := by
  refine Stmt.induction ?action ?block ?nil ?cons
  case action =>
    intro a site block position r hsize
    rw [resolveAt, trailAt_action, Step.resolveAll_cons, size_resolve_action, hsize,
      blockCount_action, Nat.add_zero]
    refine ⟨?_, rfl⟩
    show _ = ((a.resolve _ position r).1 && true, (a.resolve _ position r).2)
    rw [Bool.and_true]
  case block =>
    intro body ih site block position r hsize
    -- The scope that is made here is the one that the trail names by the number of the block.
    have henter : (r.enter (site.scope start size)).scopes.size = size + (block + 1) := by
      rw [Resolver.size_enter, hsize, Nat.add_assoc]
    obtain ⟨hbody, hnext⟩ := ih (.block block) (block + 1) position true _ henter
    rw [resolveAt, trailAt_block, Step.resolveAll_cons, hsize]
    refine ⟨?_, ?_⟩
    · rw [Bool.true_and] at hbody
      rw [show size + block = (Site.block block).scope start size from rfl, hbody]
      show _ = (true && _, _)
      rw [Bool.true_and]
      rfl
    · rw [show size + block = (Site.block block).scope start size from rfl, hnext,
        blockCount_block]
      omega
  case nil =>
    intro site block position valid r hsize
    rw [Stmt.resolveAll, trailOf_nil, blockCountOf_nil, Nat.add_zero]
    refine ⟨?_, hsize⟩
    show _ = (valid && true, r)
    rw [Bool.and_true]
  case cons =>
    intro s rest ihs ihrest site block position valid r hsize
    -- One scope was made for each block of the statement, so the numbers go on behind them.
    obtain ⟨hs, hnext⟩ := ihs site block position r hsize
    obtain ⟨hrest, hlast⟩ := ihrest site _ (position + s.actionCount)
      ((s.resolveAt (site.scope start size) position r).1 && valid) _ hnext
    have hcons : Stmt.resolveAll (site.scope start size) position valid (s :: rest) r =
        Stmt.resolveAll (site.scope start size) (position + s.actionCount)
          ((s.resolveAt (site.scope start size) position r).1 && valid) rest
          (s.resolveAt (site.scope start size) position r).2 := by
      rw [Stmt.resolveAll]
    rw [hcons, trailOf_cons, Step.resolveAll_append, blockCountOf_cons]
    refine ⟨?_, ?_⟩
    · rw [hrest, ← hs, Bool.and_comm _ valid, Bool.and_assoc]
    · rw [hlast]
      omega

/-- Resolving a program is resolving its trail. -/
theorem resolve_eq_resolveAll (program : Stmt) (decls : Declarations) (scope : ScopeId) :
    program.resolve scope (.start decls) =
      Step.resolveAll (Site.scope scope decls.size) program.trail (.start decls) :=
  ((resolveAt_eq_resolveAll scope decls.size).1 program .outer 0 0 (.start decls) rfl).1

/-- A program resolves exactly if no read of it fails. -/
theorem resolves_iff (program : Stmt) (decls : Declarations) (scope : ScopeId) :
    program.resolves decls scope = true ↔
      (program.resolve scope (.start decls)).2.unresolvedReads = [] := by
  rw [resolves, resolve_eq_resolveAll]
  obtain ⟨missed, hreads, hvalid, -⟩ := Step.resolveAll_spec program.trail (.start decls)
  rw [hvalid, hreads, Resolver.unresolvedReads_start, List.nil_append]

end Stmt

end StraightLine
