import StraightLine.Proofs.Execution
import StraightLine.Proofs.Resolution

/-!
# Resolution against evaluation

Name resolution and evaluation walk over one program with different scope trees.  As long as the run
goes on, the same names are visible in both; so the first name that a run misses is the first one
that resolution records, and what a successful run does not miss is recorded for dead code only.

## Main definitions

* `ScopeTree.Hosts` — a tree in which the sites of a program are where they should be.
* `Aligned` — what the trees of a resolution pass and of a run have in common.

## Main statements

* `Expr.missing_of_evaluate`, `Expr.head?_missing_of_evaluate` — evaluation trips over the first
  missing read.
* `Aligned.enter`, `Aligned.declare` — the two changes of the trees keep them aligned.
* `Aligned.completes` — hence so do any steps that complete, and resolution records nothing.
* `Stmt.name_safety` — resolution is sound for evaluation, and exact on live code.

## Design notes

* **Visibility alone is not inductive.**  Whether a declaration is seen from a scope depends on the
  chain of parents, so `Aligned` also relates the chains, site by site.
* **A declaration happens behind its initialiser in both passes**, and resolution declares even if
  the initialiser failed to resolve.  The run has stopped by then, so this needs no case.
-/

namespace StraightLine

open Occurrence

/-! ## What evaluation reads -/

/-- Operators never complain about names. -/
theorem Operator.apply_ne_undefinedVariable (op : Operator) (left right : Value) (name : String) :
    op.apply left right ≠ .error (.undefinedVariable name) := by
  have hfit : ∀ result, op.fit result ≠ .error (.undefinedVariable name) := by
    intro result
    cases result with
    | none => simp [fit]
    | some n => simp [fit]
  have hint : ∀ l r, op.applyInt l r ≠ .error (.undefinedVariable name) := by
    intro l r
    unfold applyInt
    split <;> (try split) <;> simp [hfit]
  have hfloat : ∀ l r, (op.applyFloat l r).map Value.float ≠ .error (.undefinedVariable name) := by
    intro l r
    unfold applyFloat
    split <;> simp [Except.map]
  cases left with
  | int l =>
      cases right with
      | int r => exact hint l r
      | float r => exact hfloat _ _
  | float l => exact hfloat _ _

namespace Expr

variable {env : Environment} {scope : ScopeId}

/-- An expression that has a value misses nothing.  All operands are evaluated,
so no read escapes. -/
theorem missing_of_evaluate {e : Expr} :
    ∀ {value : Value}, e.evaluate env scope = .ok value → e.missing env scope = [] := by
  induction e with
  | literal v => intro value _; rfl
  | «variable» name =>
      intro value h
      rw [evaluate] at h
      cases hlookup : env.lookup scope name with
      | none => simp [hlookup] at h
      | some v => exact missing_variable_of_contains (by rw [ScopeTree.contains, hlookup]; rfl)
  | binary op left right ihl ihr =>
      intro value h
      rw [evaluate] at h
      cases hl : left.evaluate env scope with
      | error e => simp [hl] at h
      | ok l =>
          cases hr : right.evaluate env scope with
          | error e => simp [hl, hr] at h
          | ok r => rw [missing_binary, ihl hl, ihr hr, List.append_nil]

/-- An expression that fails on a name has it as its first missing read.
Operands are evaluated from left to right and the reads are listed in that
order; a failing operator may leave missing reads behind it, or in front of it
none. -/
theorem head?_missing_of_evaluate {name : String} {e : Expr} :
    e.evaluate env scope = .error (.undefinedVariable name) →
      (e.missing env scope).head? = some name := by
  induction e with
  | literal v => intro h; cases h
  | «variable» name' =>
      intro h
      rw [evaluate] at h
      cases hlookup : env.lookup scope name' with
      | none =>
          rw [hlookup] at h
          cases h
          rw [missing_variable_of_not_contains (by rw [ScopeTree.contains, hlookup]; rfl)]
          rfl
      | some v => simp [hlookup] at h
  | binary op left right ihl ihr =>
      intro h
      rw [evaluate] at h
      rw [missing_binary, List.head?_append]
      cases hl : left.evaluate env scope with
      | error e =>
          rw [hl] at h
          cases h
          rw [ihl hl]
          rfl
      | ok l =>
          -- The left side has a value, so the first missing read is on the right.
          rw [missing_of_evaluate hl]
          cases hr : right.evaluate env scope with
          | error e =>
              simp only [hl, hr] at h
              cases h
              exact ihr hr
          | ok r =>
              simp only [hl, hr] at h
              exact absurd h (op.apply_ne_undefinedVariable l r name)

end Expr

/-! ## Trees that host a program -/

/-- The site whose names a site sees right after block `count` has been opened
below `parent`.  The new block sees what its parent sees and every other site
what it saw before, so facts about the tree before can be asked at the origin. -/
def Site.origin (count : Nat) (parent site : Site) : Site :=
  if site = .block count then parent else site

theorem Site.origin_opened {count : Nat} {parent site : Site} (hparent : parent.Opened count)
    (hsite : site.Opened (count + 1)) : (Site.origin count parent site).Opened count := by
  unfold Site.origin
  by_cases hblock : site = .block count
  · rw [if_pos hblock]
    exact hparent
  · rw [if_neg hblock]
    cases site with
    | outer => trivial
    | block number =>
        have hne : number ≠ count := fun h => hblock (by rw [h])
        exact Nat.lt_of_le_of_ne (Nat.le_of_lt_succ hsite) hne

namespace ScopeTree

variable {α : Type} {tree : ScopeTree α} {start size count : Nat}

/-- A tree in which the sites of a program are where they should be: the program
was started in one of the first `size` scopes, and behind them come those of its
first `count` blocks.

The identity of a scope is then a function of its site, for every tree that
hosts the program.  This is what lets a resolution pass and a run over trees of
different sizes be compared at all. -/
structure Hosts (tree : ScopeTree α) (start size count : Nat) : Prop where
  ranked : tree.Ranked
  start_lt : start < size
  size_eq : tree.size = size + count

namespace Hosts

theorem scope_lt (h : tree.Hosts start size count) {site : Site} (hsite : site.Opened count) :
    site.scope start size < tree.size := by
  obtain ⟨-, hstart, hsize⟩ := h
  cases site with
  | outer =>
      show (start : Nat) < tree.size
      omega
  | block number =>
      have hlt : number < count := hsite
      show (size + number : Nat) < tree.size
      omega

/-- The next scope is that of the next block. -/
theorem scope_eq_size_iff (h : tree.Hosts start size count) (site : Site) :
    site.scope start size = tree.size ↔ site = .block count := by
  obtain ⟨-, hstart, hsize⟩ := h
  cases site with
  | outer =>
      rw [Site.scope_outer]
      simp only [reduceCtorEq, iff_false]
      exact Nat.ne_of_lt (by omega)
  | block number =>
      rw [Site.scope_block, Site.block.injEq, hsize]
      exact Nat.add_left_cancel_iff

/-- Opening a block below a site. -/
theorem enter (h : tree.Hosts start size count) {site : Site} (hsite : site.Opened count) :
    (tree.create (some (site.scope start size))).Hosts start size (count + 1) where
  ranked := h.ranked.create (by simpa using h.scope_lt hsite)
  start_lt := h.start_lt
  size_eq := by rw [size_create, h.size_eq, Nat.add_assoc]

theorem declare (h : tree.Hosts start size count) (site : Site) (name : String) (value : α) :
    (tree.declare (site.scope start size) name value).Hosts start size count where
  ranked := h.ranked.declare _ name value
  start_lt := h.start_lt
  size_eq := by rw [size_declare, h.size_eq]

theorem contains_enter (h : tree.Hosts start size count) {parent : Site}
    (hparent : parent.Opened count) (site : Site) (name : String) :
    (tree.create (some (parent.scope start size))).contains (site.scope start size) name =
      tree.contains ((Site.origin count parent site).scope start size) name := by
  rw [h.ranked.contains_create (h.scope_lt hparent), Site.origin]
  by_cases hblock : site = .block count
  · rw [if_pos hblock, if_pos ((h.scope_eq_size_iff site).mpr hblock)]
  · rw [if_neg hblock, if_neg fun heq => hblock ((h.scope_eq_size_iff site).mp heq)]

/-- The chains after a block has been opened: only the new scope itself is new.
Stated for sites, so that it reads the same in the tree of a pass and in the one
of a run. -/
theorem mem_ancestors_enter (h : tree.Hosts start size count) {parent : Site}
    (hparent : parent.Opened count) (site above : Site) :
    above.scope start size ∈
        (tree.create (some (parent.scope start size))).ancestors (site.scope start size) ↔
      (above = .block count ∧ site = .block count) ∨
        (above ≠ .block count ∧
          above.scope start size ∈
            tree.ancestors ((Site.origin count parent site).scope start size)) := by
  have hlt := h.scope_lt hparent
  -- The new scope is on no older chain.
  have hold : ∀ {id}, above.scope start size ∈ tree.ancestors id → above ≠ .block count := by
    intro id hmem hblock
    rw [(h.scope_eq_size_iff above).mpr hblock] at hmem
    exact absurd (lt_size_of_mem_ancestors hmem) (Nat.lt_irrefl _)
  rw [Site.origin]
  by_cases hblock : site = .block count
  · rw [if_pos hblock, (h.scope_eq_size_iff site).mpr hblock,
      h.ranked.ancestors_create_self hlt, List.mem_cons, h.scope_eq_size_iff]
    constructor
    · rintro (habove | hmem)
      · exact Or.inl ⟨habove, hblock⟩
      · exact Or.inr ⟨hold hmem, hmem⟩
    · rintro (⟨habove, -⟩ | ⟨-, hmem⟩)
      · exact Or.inl habove
      · exact Or.inr hmem
  · have hne : site.scope start size ≠ tree.size :=
      fun heq => hblock ((h.scope_eq_size_iff site).mp heq)
    rw [if_neg hblock, h.ranked.ancestors_create_of_ne (by simpa using hlt) hne]
    constructor
    · intro hmem
      exact Or.inr ⟨hold hmem, hmem⟩
    · rintro (⟨-, hsite⟩ | ⟨-, hmem⟩)
      · exact absurd hsite hblock
      · exact hmem

end Hosts

end ScopeTree

/-! ## Both passes side by side -/

/-- What the trees of a resolution pass and of a run have in common after
`count` blocks have been opened.  The pass began in scope `sd` of a tree with
`m` scopes, the run in scope `se` of a tree with `n` scopes.

What is wanted is `contains`, but alone it is not kept by a declaration: a name
declared at one site becomes visible from all sites below it, and which these
are is a matter of the chains of parents.  So `ancestors` is carried along; with
it both trees make the name visible from the same sites.  Outside the sites of
the program the trees may differ in any way. -/
structure Aligned (sd m se n count : Nat) (decls : Declarations) (env : Environment) : Prop where
  hostsDecls : decls.Hosts sd m count
  hostsEnv : env.Hosts se n count
  /-- The same names are visible. -/
  contains : ∀ site : Site, site.Opened count → ∀ name,
    decls.contains (site.scope sd m) name = env.contains (site.scope se n) name
  /-- The same sites are on the chains of parents. -/
  ancestors : ∀ site above : Site, site.Opened count → above.Opened count →
    (above.scope sd m ∈ decls.ancestors (site.scope sd m) ↔
      above.scope se n ∈ env.ancestors (site.scope se n))

namespace Aligned

variable {sd m se n count : Nat} {decls : Declarations} {env : Environment}

/-- Before the first block it is enough that the same names are visible from the
start.  There is only one site then, and it is on its own chain in both trees. -/
theorem start (hdecls : decls.Hosts sd m 0) (henv : env.Hosts se n 0)
    (hsame : ∀ name, decls.contains sd name = env.contains se name) :
    Aligned sd m se n 0 decls env where
  hostsDecls := hdecls
  hostsEnv := henv
  contains := by
    intro site hsite name
    cases site with
    | outer => exact hsame name
    | block number => exact absurd hsite (Nat.not_lt_zero number)
  ancestors := by
    intro site above hsite habove
    cases site with
    | outer =>
        cases above with
        | outer =>
            have houter : Site.outer.Opened 0 := trivial
            have hd := ScopeTree.self_mem_ancestors (hdecls.scope_lt houter)
            have he := ScopeTree.self_mem_ancestors (henv.scope_lt houter)
            exact ⟨fun _ => he, fun _ => hd⟩
        | block number => exact absurd habove (Nat.not_lt_zero number)
    | block number => exact absurd hsite (Nat.not_lt_zero number)

/-- Opening a block below the same site.  Both new scopes see what their parents
see, and the chains grow alike by the new scope. -/
theorem enter (h : Aligned sd m se n count decls env) {parent : Site}
    (hparent : parent.Opened count) :
    Aligned sd m se n (count + 1) (decls.create (some (parent.scope sd m)))
      (env.create (some (parent.scope se n))) where
  hostsDecls := h.hostsDecls.enter hparent
  hostsEnv := h.hostsEnv.enter hparent
  contains := by
    intro site hsite name
    rw [h.hostsDecls.contains_enter hparent, h.hostsEnv.contains_enter hparent]
    exact h.contains _ (Site.origin_opened hparent hsite) name
  ancestors := by
    intro site above hsite habove
    rw [h.hostsDecls.mem_ancestors_enter hparent, h.hostsEnv.mem_ancestors_enter hparent]
    refine or_congr Iff.rfl (and_congr_right fun hne => ?_)
    -- Any site but that of the new block was available before.
    refine h.ancestors _ above (Site.origin_opened hparent hsite) ?_
    cases above with
    | outer => trivial
    | block number =>
        have hnumber : number ≠ count := fun heq => hne (by rw [heq])
        exact Nat.lt_of_le_of_ne (Nat.le_of_lt_succ habove) hnumber

/-- Declaring the same name at the same site.  It becomes visible from the sites
below the target, and by `ancestors` these are the same in both trees. -/
theorem declare (h : Aligned sd m se n count decls env) {target : Site}
    (htarget : target.Opened count) (name : String) (value : Value) :
    Aligned sd m se n count (decls.declare (target.scope sd m) name ())
      (env.declare (target.scope se n) name value) where
  hostsDecls := h.hostsDecls.declare target name ()
  hostsEnv := h.hostsEnv.declare target name value
  contains := by
    intro site hsite name'
    rw [Bool.eq_iff_iff, ScopeTree.contains_declare (h.hostsDecls.scope_lt htarget),
      ScopeTree.contains_declare (h.hostsEnv.scope_lt htarget), h.contains site hsite,
      h.ancestors site target hsite htarget]
  ancestors := by
    intro site above hsite habove
    rw [ScopeTree.ancestors_declare, ScopeTree.ancestors_declare]
    exact h.ancestors site above hsite habove

/-- The same reads are missing at a site. -/
theorem missing_eq (h : Aligned sd m se n count decls env) {site : Site}
    (hsite : site.Opened count) (e : Expr) :
    e.missing decls (site.scope sd m) = e.missing env (site.scope se n) :=
  Expr.missing_congr (h.contains site hsite) e

/-- Steps that complete keep both passes aligned, and resolution records
nothing.  The second half is a consequence of the first, step by step: a step
that completes has a value, so it misses nothing in the run, and hence nothing
in the pass. -/
theorem completes {steps : List Step} {state final : Run}
    (hrun : Step.Completes (Site.scope se n) steps state final) :
    ∀ {count : Nat} {r : Resolver} {rest : List Step},
      Aligned sd m se n count r.scopes state.scopes → Step.Placed count (steps ++ rest) →
      ∃ opened, Step.Placed opened rest ∧
        Aligned sd m se n opened (Step.resolveAll (Site.scope sd m) steps r).2.scopes
          final.scopes ∧
        (Step.resolveAll (Site.scope sd m) steps r).2.unresolvedReads = r.unresolvedReads := by
  induction hrun with
  | nil state => intro count r rest h hplaced; exact ⟨count, hplaced, h, rfl⟩
  | @cons step steps state next final value hstep _ ih =>
      intro count r rest h hplaced
      rw [Step.resolveAll_cons]
      cases step with
      | enter site =>
          cases hstep
          exact ih (h.enter hplaced.1) hplaced.2
      | act site v =>
          obtain ⟨hsite, hplaced⟩ := hplaced
          obtain ⟨hscopes, hreads, -⟩ :=
            v.action.resolve_spec (site.scope sd m) v.position r
          rcases Action.run_cases (site.scope se n) v.position v.action state with
            ⟨e, -, hend⟩ | ⟨target, expr, result, hassign, heval, hend⟩ | ⟨expr, result, -, -, hend⟩
          · rw [Step.run, hend] at hstep
            cases hstep
          · -- The value exists, so no read is missing for the run, and none for resolution either.
            rw [Step.run, hend] at hstep
            cases hstep
            have hvalue : v.action.value = expr := by rw [hassign]; rfl
            rw [hvalue, h.missing_eq hsite, Expr.missing_of_evaluate heval, List.map_nil,
              List.append_nil] at hreads
            rw [hassign] at hscopes
            have hnext : Aligned sd m se n count (v.action.resolve (site.scope sd m) v.position
                r).2.scopes ((state.begin v.position v.action).declare (site.scope se n) target
                  result).scopes := by
              rw [hassign, hscopes]
              exact h.declare hsite target result
            obtain ⟨opened, hrest, haligned, hsame⟩ := ih hnext hplaced
            exact ⟨opened, hrest, haligned, hsame.trans hreads⟩
          · rw [Step.run, hend] at hstep
            cases hstep

end Aligned

/-! ## Programs -/

namespace Stmt

open Step

variable {program : Stmt} {decls : Declarations} {env : Environment} {sd se : ScopeId}

/-- Before an action that a run gets to, resolution records nothing; there it
records what the evaluation misses, and behind it reads of later actions.  All
three parts of the main theorem are read off this: an error on a name is the
first of the reads missed here, and what comes behind belongs to actions that
the run has not started. -/
theorem Reaches.unresolvedReads {before : List Step} {vertex : Occurrence}
    {result : Except EvalError Value} (h : program.Reaches env se before vertex result)
    (haligned : Aligned sd decls.size se env.size 0 decls env) :
    ∃ scopes scope rest missed,
      vertex.action.value.evaluate scopes scope = result ∧
      program.occurrences = vertices before ++ vertex :: rest ∧
      (program.resolve sd (.start decls)).2.unresolvedReads =
        (vertex.action.value.missing scopes scope).map (⟨·, vertex.position⟩) ++ missed ∧
      ∀ read ∈ missed, ∃ v ∈ rest,
        v.position = read.position ∧ read.name ∈ v.action.value.reads := by
  obtain ⟨site, after, mid, hsplit, hbefore, heval⟩ := h
  have hplaced := program.placed_trail
  rw [hsplit] at hplaced
  let r := (Step.resolveAll (Site.scope sd decls.size) before (.start decls)).2
  have hstart : Aligned sd decls.size se env.size 0 (Resolver.start decls).scopes
      (Run.start env).scopes := haligned
  obtain ⟨opened, ⟨hsite, -⟩, hmid, hreads⟩ := Aligned.completes hbefore hstart hplaced
  obtain ⟨-, hhere, -⟩ :=
    vertex.action.resolve_spec (site.scope sd decls.size) vertex.position r
  obtain ⟨missed, hlater, -, hmissed⟩ := Step.resolveAll_spec after
    (vertex.action.resolve (site.scope sd decls.size) vertex.position r).2
  refine ⟨mid.scopes, site.scope se env.size, vertices after, missed, heval, ?_, ?_, hmissed⟩
  · rw [← vertices_trail, hsplit, vertices_append, vertices_act]
  · rw [← hmid.missing_eq hsite, resolve_eq_resolveAll, hsplit, Step.resolveAll_append,
      Step.resolveAll_cons]
    refine hlater.trans ?_
    rw [hhere, show r.unresolvedReads = [] from hreads, List.nil_append]

/-- A run that completes all steps leaves resolution nothing to record. -/
theorem unresolvedReads_of_completes {final : Run}
    (h : Step.Completes (Site.scope se env.size) program.trail (.start env) final)
    (haligned : Aligned sd decls.size se env.size 0 decls env) :
    (program.resolve sd (.start decls)).2.unresolvedReads = [] := by
  have hplaced := program.placed_trail
  rw [← List.append_nil program.trail] at hplaced
  have hstart : Aligned sd decls.size se env.size 0 (Resolver.start decls).scopes
      (Run.start env).scopes := haligned
  obtain ⟨-, -, -, hreads⟩ := Aligned.completes h hstart hplaced
  rw [resolve_eq_resolveAll]
  exact hreads

/-- The name on which a run fails is the first one that resolution records. -/
theorem head?_unresolved_of_execute {name : String}
    (haligned : Aligned sd decls.size se env.size 0 decls env)
    (herror : (program.execute env se).1 = .error (.undefinedVariable name)) :
    (program.resolve sd (.start decls)).2.unresolved.head? = some name := by
  rcases program.execute_cases env se with
    ⟨value, final, hrun, -⟩ | ⟨before, vertex, -, ⟨e, hrun, hreaches⟩ | ⟨value, hrun, -⟩⟩
  · rw [hrun] at herror
    cases herror
  · rw [hrun] at herror
    cases herror
    obtain ⟨scopes, scope, rest, missed, heval, -, hreads, -⟩ :=
      hreaches.unresolvedReads haligned
    have hnames : ((vertex.action.value.missing scopes scope).map
        (⟨·, vertex.position⟩)).map Read.name = vertex.action.value.missing scopes scope := by
      rw [List.map_map]
      exact List.map_id _
    rw [Resolver.unresolved, hreads, List.map_append, hnames, List.head?_append,
      Expr.head?_missing_of_evaluate heval]
    rfl
  · rw [hrun] at herror
    cases herror

/-- After a run without error, resolution has recorded reads of unreachable actions only. -/
theorem mem_unreachable_of_unresolved {completion : Completion} {read : Read}
    (haligned : Aligned sd decls.size se env.size 0 decls env)
    (hok : (program.execute env se).1 = .ok completion)
    (hread : read ∈ (program.resolve sd (.start decls)).2.unresolvedReads) :
    ∃ v ∈ program.flow.reachability.unreachable,
      v.position = read.position ∧ read.name ∈ v.action.value.reads := by
  rcases program.execute_cases env se with
    ⟨_, final, -, hall⟩ | ⟨before, vertex, -, ⟨e, hrun, -⟩ | ⟨result, -, hret, hreaches⟩⟩
  · rw [unresolvedReads_of_completes hall haligned] at hread
    cases hread
  · rw [hrun] at hok
    cases hok
  · obtain ⟨scopes, scope, rest, missed, heval, hoccurrences, hreads, hmissed⟩ :=
      hreaches.unresolvedReads haligned
    rw [hreads, Expr.missing_of_evaluate heval, List.map_nil, List.nil_append] at hread
    obtain ⟨v, hv, hstands⟩ := hmissed read hread
    refine ⟨v, ?_, hstands⟩
    rw [unreachable_flow, (hreaches.of_return hret).1, hoccurrences,
      List.append_cons (vertices before) vertex rest, List.drop_left]
    exact hv

/-- **Resolution is sound for evaluation, and exact on live code.**  Let the same names be visible
from a scope of a tree of declarations and a scope of an environment, both grown by creation and
declaration as all trees are.  If a run fails on a name, it is the first name that resolution
records, so a program that resolves never fails on a name.  If a run succeeds, every read that
resolution records stands in an unreachable action. -/
theorem name_safety (program : Stmt) (hdecls : decls.Grown) (henv : env.Grown)
    (hsd : sd < decls.size) (hse : se < env.size)
    (hsame : ∀ name, decls.contains sd name = env.contains se name) :
    (∀ name, (program.evaluate env se).1 = .error (.undefinedVariable name) →
        (program.resolve sd (.start decls)).2.unresolved.head? = some name) ∧
      (program.resolves decls sd = true →
        ∀ name, (program.evaluate env se).1 ≠ .error (.undefinedVariable name)) ∧
      ∀ value, (program.evaluate env se).1 = .ok value →
        ∀ read ∈ (program.resolve sd (.start decls)).2.unresolvedReads,
          ∃ v ∈ program.flow.reachability.unreachable,
            v.position = read.position ∧ read.name ∈ v.action.value.reads := by
  have haligned : Aligned sd decls.size se env.size 0 decls env :=
    .start ⟨hdecls.ranked, hsd, rfl⟩ ⟨henv.ranked, hse, rfl⟩ hsame
  have hfirst : ∀ name, (program.evaluate env se).1 = .error (.undefinedVariable name) →
      (program.resolve sd (.start decls)).2.unresolved.head? = some name := by
    intro name herror
    exact head?_unresolved_of_execute haligned (execute_of_evaluate_error herror)
  refine ⟨hfirst, ?_, ?_⟩
  · intro hresolves name herror
    have hhead := hfirst name herror
    rw [Resolver.unresolved, (resolves_iff program decls sd).mp hresolves] at hhead
    cases hhead
  · intro value hvalue read hread
    obtain ⟨completion, hok⟩ := execute_of_evaluate_ok hvalue
    exact mem_unreachable_of_unresolved haligned hok hread

/-- A read that fails in an inner block is the first one recorded, and one behind a return is
recorded although the run succeeds. -/
theorem name_safety_of_misses :
    let failing : Stmt := .block [
      .assign "x" (.literal (.int 1)),
      .block [.assign "y" (.binary .plus (.variable "x") (.variable "z"))],
      .ret (.variable "y")]
    let dead : Stmt := .block [.ret (.literal (.int 1)), .assign "x" (.variable "y")]
    (failing.evaluate .withRoot 0).1 = .error (.undefinedVariable "z") ∧
      (failing.resolve 0 (.start .withRoot)).2.unresolved.head? = some "z" ∧
      (dead.evaluate .withRoot 0).1 = .ok (some (.int 1)) ∧
      ∃ v ∈ dead.flow.reachability.unreachable, v.position = 1 ∧ "y" ∈ v.action.value.reads := by
  intro failing dead
  have hdecls : (ScopeTree.withRoot : Declarations).Grown := .root .empty
  have henv : (ScopeTree.withRoot : Environment).Grown := .root .empty
  have hsame : ∀ name, (ScopeTree.withRoot : Declarations).contains 0 name =
      (ScopeTree.withRoot : Environment).contains 0 name := fun _ => rfl
  have hfailing : (failing.evaluate .withRoot 0).1 = .error (.undefinedVariable "z") := by rfl
  have hdead : (dead.evaluate .withRoot 0).1 = .ok (some (.int 1)) := by rfl
  have hread : Read.mk "y" 1 ∈ (dead.resolve 0 (.start .withRoot)).2.unresolvedReads := by
    decide
  exact ⟨hfailing,
    (name_safety failing hdecls henv (by decide) (by decide) hsame).1 "z" hfailing, hdead,
    (name_safety dead hdecls henv (by decide) (by decide) hsame).2.2 _ hdead _ hread⟩

end Stmt

end StraightLine
