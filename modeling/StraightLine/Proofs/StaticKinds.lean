import StraightLine.Proofs.Execution
import StraightLine.Proofs.Frames
import StraightLine.Proofs.Lookup
import StraightLine.Proofs.OperatorOutcomes

/-!
# Numeric kinds are static

Whether a value is an integer or a floating number does not depend on any number.  The kind of an
expression can be read off its text and the kinds of the names in it, and two runs of a program that
see the same kinds at first create the same scopes, bind the same names to values of the same kinds,
and have results of the same kind.

## Main definitions

* `Expr.operators` — the operators in an expression.
* `ScopeTree.kindsFrom`, `ScopeTree.kindsIn` — the kinds that are seen from a scope, and that are
  bound in it.
* `SameKinds` — what two runs of a program have in common at every moment.

## Main statements

* `Expr.kind_of_evaluate` — the kind of an expression.
* `SameKinds.lookup` — from every scope that a program has opened the same kinds are seen.
* `Step.runAll_sameKinds` — two runs of the same steps.
* `Stmt.kinds_are_static` — two runs of a program.

## Design notes

* **Only the scope of the start is compared as it is seen.**  A block's scope was created by the
  program, so it is compared by its own bindings and by its parent; what is seen from it follows,
  however deep it lies and whatever it shadows.
* **The trees need not have the same size or shape.**  Scopes that the two runs create are matched
  by their number in order of creation.
-/

namespace StraightLine

/-! ## The kind of an expression -/

namespace Expr

/-- The operators in an expression. -/
def operators : Expr → List Operator
  | .literal _ | .variable _ => []
  | .binary op left right => op :: (left.operators ++ right.operators)

/-- Something in an expression is floating: a literal, a variable or the result
of an operator.  The kind of a name is a parameter, so the definition reads the
text of the expression and no environment. -/
def HasFloating (kinds : String → Option Kind) (e : Expr) : Prop :=
  (∃ value ∈ e.literals, value.kind = .float) ∨ (∃ name ∈ e.reads, kinds name = some .float) ∨
    ∃ op ∈ e.operators, op.isIntegral = false

theorem hasFloating_binary {kinds : String → Option Kind} {op : Operator} {left right : Expr} :
    (binary op left right).HasFloating kinds ↔
      op.isIntegral = false ∨ left.HasFloating kinds ∨ right.HasFloating kinds := by
  simp only [HasFloating, literals_binary, reads_binary, operators, List.mem_append, List.mem_cons,
    or_and_right, exists_or, exists_eq_left]
  grind

/-- The operators whose result is always floating are `/` and `**`.  Here the
property is spelled out in the words of the language, for names with values. -/
theorem hasFloating_iff {view : String → Option Value} {e : Expr} :
    e.HasFloating (fun name => (view name).map Value.kind) ↔
      (∃ x, .float x ∈ e.literals) ∨ (∃ name ∈ e.reads, ∃ x, view name = some (.float x)) ∨
        .floatDiv ∈ e.operators ∨ .exponentiation ∈ e.operators := by
  have hkind : ∀ value : Value, value.kind = .float ↔ ∃ x, value = .float x := by
    intro value
    cases value <;> simp
  have hoperator : ∀ op : Operator,
      op.isIntegral = false ↔ op = .floatDiv ∨ op = .exponentiation := by
    intro op
    cases op <;> decide
  refine or_congr ?_ (or_congr ?_ ?_)
  · simp only [hkind]
    grind
  · simp only [Option.map_eq_some_iff, hkind]
    grind
  · simp only [hoperator]
    grind

end Expr

namespace ScopeTree

/-- The kinds of the values that are seen from a scope. -/
def kindsFrom (env : Environment) (scope : ScopeId) (name : String) : Option Kind :=
  (env.lookup scope name).map Value.kind

/-- The kinds of the values that a scope itself binds. -/
def kindsIn (env : Environment) (scope : ScopeId) (name : String) : Option Kind :=
  (env.local? scope name).map Value.kind

end ScopeTree

theorem Operator.resultKind_eq_float_iff {op : Operator} {left right : Kind} :
    op.resultKind left right = .float ↔
      op.isIntegral = false ∨ left = .float ∨ right = .float := by
  cases op <;> cases left <;> cases right <;> decide

/-- **A value is floating exactly if something in the expression is.** Integers
are only ever converted to floating numbers and not back, so one floating
operand anywhere decides. -/
theorem Expr.kind_of_evaluate {env : Environment} {scope : ScopeId} {e : Expr} {v : Value}
    (h : e.evaluate env scope = .ok v) :
    v.kind = .float ↔ e.HasFloating (env.kindsFrom scope) := by
  induction e generalizing v with
  | literal value =>
      cases h
      simp [HasFloating, operators]
  | «variable» name =>
      rw [evaluate] at h
      split at h
      · rename_i value hlookup
        cases h
        simp [HasFloating, operators, ScopeTree.kindsFrom, hlookup]
      · cases h
  | binary op left right ihl ihr =>
      rw [evaluate] at h
      split at h
      · cases h
      · rename_i l hl
        split at h
        · cases h
        · rename_i r hr
          rw [Operator.kind_of_apply h, Operator.resultKind_eq_float_iff, ihl hl, ihr hr,
            hasFloating_binary]

/-- Two kinds are the same if they are floating in the same case. -/
theorem Kind.eq_of_float_iff {k k' : Kind} (h : k = .float ↔ k' = .float) : k = k' := by
  cases k <;> cases k' <;> simp_all

/-- Where the same kinds are seen, the values of an expression have the same kind. -/
theorem Expr.kind_congr {env env' : Environment} {scope scope' : ScopeId} {e : Expr} {v v' : Value}
    (hseen : env.kindsFrom scope = env'.kindsFrom scope')
    (h : e.evaluate env scope = .ok v) (h' : e.evaluate env' scope' = .ok v') :
    v.kind = v'.kind := by
  apply Kind.eq_of_float_iff
  rw [kind_of_evaluate h, kind_of_evaluate h', hseen]

/-! ## What is seen from a scope -/

namespace ScopeTree

variable {α : Type} {tree : ScopeTree α}

/-- A scope sees what it binds, and otherwise what its parent sees.  What is
seen from a block is thus known from the block and the scope around it, level by
level. -/
theorem Ranked.lookup_of_below (ranked : tree.Ranked) {id parent : ScopeId}
    (h : tree.Below id parent) (name : String) :
    tree.lookup id name = (tree.local? id name).or (tree.lookup parent name) := by
  rw [lookup, ranked.ancestors_of_below h, List.findSome?_cons, lookup]
  cases tree.local? id name <;> rfl

end ScopeTree

/-! ## Two runs -/

/-- Where a program is started: a scope of a tree, and the number of scopes that the tree has. -/
structure Origin where
  start : ScopeId
  size : Nat
  start_lt : start < size

/-- The scope that a site stands for. -/
def Origin.scope (o : Origin) (site : Site) : ScopeId := site.scope o.start o.size

/-- What two runs of a program have in common, each with its origin: both have
opened `count` blocks, at the same places and with the same kinds.

For the scope of the start only what is seen from it has to agree, as the
environments around may be quite different.  A scope that the program has opened
is described by its own bindings and its place; that the same kinds are seen
from it is a consequence (`SameKinds.seen`), and carrying it instead would not
survive a declaration in a scope around. -/
structure SameKinds (o o' : Origin) (count : Nat) (env env' : Environment) : Prop where
  ranked : env.Ranked
  ranked' : env'.Ranked
  size_eq : env.size = o.size + count
  size_eq' : env'.size = o'.size + count
  /-- The same kinds are seen from the scope in which the program was started. -/
  outer_eq : env.kindsFrom o.start = env'.kindsFrom o'.start
  /-- Scopes with the same number lie below scopes that correspond. -/
  below : ∀ k < count, ∃ site : Site, site.Opened k ∧
    env.Below (o.size + k) (o.scope site) ∧ env'.Below (o'.size + k) (o'.scope site)
  /-- Scopes with the same number bind the same names, to values of the same kinds. -/
  bound_eq : ∀ k < count, env.kindsIn (o.size + k) = env'.kindsIn (o'.size + k)

namespace Origin

variable {o : Origin} {count : Nat}

/-- A site that is available stands for a scope that exists. -/
theorem scope_lt (o : Origin) {site : Site} (hsite : site.Opened count) :
    o.scope site < o.size + count := by
  cases site with
  | outer => exact Nat.lt_add_right _ o.start_lt
  | block number => exact Nat.add_lt_add_left hsite _

/-- Of the sites of a program only a block stands for a new scope. -/
theorem add_eq_scope_iff {k : Nat} {site : Site} :
    o.size + k = o.scope site ↔ site = .block k := by
  cases site with
  | outer =>
      have hne : o.size + k ≠ o.start := Nat.ne_of_gt (Nat.lt_add_right k o.start_lt)
      simp [scope, hne]
  | block number => simp [scope, eq_comm]

end Origin

namespace ScopeTree

variable {env : Environment} {id : ScopeId}

theorem kindsIn_create (parent : Option ScopeId) :
    (env.create parent).kindsIn id = env.kindsIn id := by
  funext name
  rw [kindsIn, local?_create, kindsIn]

theorem Ranked.kindsFrom_create (ranked : env.Ranked) {parent : Option ScopeId}
    (hparent : ∀ p ∈ parent, p < env.size) (hid : id < env.size) :
    (env.create parent).kindsFrom id = env.kindsFrom id := by
  funext name
  rw [kindsFrom, ranked.lookup_create_of_lt hparent hid, kindsFrom]

/-- What is bound in a younger scope is not seen.  So declarations in blocks
change nothing for the scope of the start. -/
theorem Ranked.kindsFrom_declare_of_lt (ranked : env.Ranked) {younger : ScopeId}
    (hyounger : younger < env.size) (hid : id < younger) (target : String) (value : Value) :
    (env.declare younger target value).kindsFrom id = env.kindsFrom id := by
  have hnotMem : younger ∉ env.ancestors id := fun hmem =>
    Nat.not_lt.mpr (ranked.le_of_mem_ancestors hmem) hid
  funext name
  rw [kindsFrom, lookup_declare_of_notMem hyounger hnotMem, kindsFrom]

theorem Ranked.kindsFrom_declare_self (ranked : env.Ranked) (hid : id < env.size)
    (target : String) (value : Value) :
    (env.declare id target value).kindsFrom id =
      fun name => if name = target then some value.kind else env.kindsFrom id name := by
  funext name
  rw [kindsFrom, ranked.lookup_declare_self hid, apply_ite (Option.map Value.kind)]
  rfl

theorem kindsIn_declare (hid : id < env.size) (target : String) (value : Value) (j : ScopeId) :
    (env.declare id target value).kindsIn j =
      fun name => if j = id ∧ name = target then some value.kind else env.kindsIn j name := by
  funext name
  rw [kindsIn, local?_declare hid, apply_ite (Option.map Value.kind)]
  rfl

end ScopeTree

namespace SameKinds

variable {o o' : Origin} {count : Nat} {env env' : Environment}

/-- At first only what is seen from the scopes of the start has to agree. -/
theorem start {scope scope' : ScopeId} {hscope : scope < env.size} {hscope' : scope' < env'.size}
    (grown : env.Grown) (grown' : env'.Grown)
    (hseen : env.kindsFrom scope = env'.kindsFrom scope') :
    SameKinds ⟨scope, env.size, hscope⟩ ⟨scope', env'.size, hscope'⟩ 0 env env' where
  ranked := grown.ranked
  ranked' := grown'.ranked
  size_eq := rfl
  size_eq' := rfl
  outer_eq := hseen
  below k hk := absurd hk (Nat.not_lt_zero k)
  bound_eq k hk := absurd hk (Nat.not_lt_zero k)

/-- **The same kinds are seen from every scope that the program has opened.** By
induction on the number of the block: it binds the same kinds, and it lies below
a site that was opened before it. -/
theorem seen (h : SameKinds o o' count env env') {site : Site} (hsite : site.Opened count) :
    env.kindsFrom (o.scope site) = env'.kindsFrom (o'.scope site) := by
  cases site with
  | outer => exact h.outer_eq
  | block number =>
      -- The parent of a block was opened before it.
      induction number using Nat.strong_induction_on with
      | h number ih =>
          obtain ⟨site, hopened, hbelow, hbelow'⟩ := h.below number hsite
          have hparent : env.kindsFrom (o.scope site) = env'.kindsFrom (o'.scope site) := by
            cases site with
            | outer => exact h.outer_eq
            | block k => exact ih k hopened (Nat.lt_trans hopened hsite)
          funext name
          have hbound := congrFun (h.bound_eq number hsite) name
          have hparent := congrFun hparent name
          simp only [ScopeTree.kindsFrom, ScopeTree.kindsIn, Origin.scope, Site.scope_block] at *
          rw [h.ranked.lookup_of_below hbelow, h.ranked'.lookup_of_below hbelow', Option.map_or,
            Option.map_or, hbound, hparent]

/-- Opening the next block.  In both trees it gets the number `count` and binds
nothing, so the kinds bound in older blocks are all that has to be carried over. -/
theorem create (h : SameKinds o o' count env env') {site : Site} (hsite : site.Opened count) :
    SameKinds o o' (count + 1) (env.create (some (o.scope site)))
      (env'.create (some (o'.scope site))) := by
  have hlt : ∀ p ∈ some (o.scope site), p < env.size := by
    simpa [h.size_eq] using o.scope_lt hsite
  have hlt' : ∀ p ∈ some (o'.scope site), p < env'.size := by
    simpa [h.size_eq'] using o'.scope_lt hsite
  refine ⟨h.ranked.create hlt, h.ranked'.create hlt', ?_, ?_, ?_, fun k hk => ?_, fun k hk => ?_⟩
  · rw [ScopeTree.size_create, h.size_eq, Nat.add_assoc]
  · rw [ScopeTree.size_create, h.size_eq', Nat.add_assoc]
  · rw [h.ranked.kindsFrom_create hlt (h.size_eq ▸ Nat.lt_add_right _ o.start_lt),
      h.ranked'.kindsFrom_create hlt' (h.size_eq' ▸ Nat.lt_add_right _ o'.start_lt), h.outer_eq]
  · simp only [ScopeTree.Below, ScopeTree.parent?_create, h.size_eq, h.size_eq',
      Nat.add_left_cancel_iff]
    rcases Nat.lt_or_eq_of_le (Nat.le_of_lt_succ hk) with hk | rfl
    · simpa only [if_neg (Nat.ne_of_lt hk), ScopeTree.Below] using h.below k hk
    · exact ⟨site, hsite, by simp⟩
  · rw [ScopeTree.kindsIn_create, ScopeTree.kindsIn_create]
    rcases Nat.lt_or_eq_of_le (Nat.le_of_lt_succ hk) with hk | rfl
    · exact h.bound_eq k hk
    · funext name
      rw [ScopeTree.kindsIn, ← h.size_eq, ScopeTree.local?_eq_none (Nat.le_refl _),
        ScopeTree.kindsIn, ← h.size_eq', ScopeTree.local?_eq_none (Nat.le_refl _)]

/-- Binding a name to values of the same kind.  The site may be the scope of the
start or that of a block: in the first case what is seen from there changes
alike, in the second what is bound there does. -/
theorem declare (h : SameKinds o o' count env env') {site : Site} (hsite : site.Opened count)
    (target : String) {value value' : Value} (hkind : value.kind = value'.kind) :
    SameKinds o o' count (env.declare (o.scope site) target value)
      (env'.declare (o'.scope site) target value') := by
  have hlt : o.scope site < env.size := h.size_eq ▸ o.scope_lt hsite
  have hlt' : o'.scope site < env'.size := h.size_eq' ▸ o'.scope_lt hsite
  refine ⟨h.ranked.declare _ _ _, h.ranked'.declare _ _ _, ?_, ?_, ?_, fun k hk => ?_,
    fun k hk => ?_⟩
  · rw [ScopeTree.size_declare, h.size_eq]
  · rw [ScopeTree.size_declare, h.size_eq']
  · cases site with
    | outer =>
        have hself := h.ranked.kindsFrom_declare_self hlt target value
        have hself' := h.ranked'.kindsFrom_declare_self hlt' target value'
        simp only [Origin.scope, Site.scope_outer] at hself hself' ⊢
        rw [hself, hself', h.outer_eq, hkind]
    | block number =>
        rw [h.ranked.kindsFrom_declare_of_lt hlt (Nat.lt_add_right _ o.start_lt),
          h.ranked'.kindsFrom_declare_of_lt hlt' (Nat.lt_add_right _ o'.start_lt), h.outer_eq]
  · simp only [ScopeTree.Below, ScopeTree.parent?_declare]
    exact h.below k hk
  · rw [ScopeTree.kindsIn_declare hlt, ScopeTree.kindsIn_declare hlt', h.bound_eq k hk, hkind]
    simp only [Origin.add_eq_scope_iff]

end SameKinds

/-- Both statements finished the same way, with values of the same kind. -/
inductive Completion.SameKind : Completion → Completion → Prop where
  | normal {value value' : Option Value} : value.map Value.kind = value'.map Value.kind →
      SameKind (.normal value) (.normal value')
  | returned {value value' : Value} : value.kind = value'.kind →
      SameKind (.returned value) (.returned value')

theorem Completion.SameKind.value?_eq {c c' : Completion} (h : c.SameKind c') :
    c.value?.map Value.kind = c'.value?.map Value.kind := by
  cases h with
  | normal h => exact h
  | returned h => exact congrArg some h

section Runs

variable {o o' : Origin} {state state' next next' : Run} {c c' : Completion}

/-- Two runs of an action, if neither fails. -/
theorem Action.run_sameKinds {count : Nat} {site : Site} {position : Nat} {a : Action}
    (h : SameKinds o o' count state.scopes state'.scopes) (hsite : site.Opened count)
    (hrun : a.run (o.scope site) position state = (.ok c, next))
    (hrun' : a.run (o'.scope site) position state' = (.ok c', next')) :
    c.SameKind c' ∧ SameKinds o o' count next.scopes next'.scopes := by
  rcases a.run_cases (o.scope site) position state with
    ⟨e, -, hact⟩ | ⟨target, expr, value, rfl, hvalue, hact⟩ | ⟨expr, value, rfl, hvalue, hact⟩
  · rw [hact] at hrun
    cases hrun
  · rcases Action.run_cases (o'.scope site) position (.assign target expr) state' with
      ⟨e, -, hact'⟩ | ⟨_, _, value', heq, hvalue', hact'⟩ | ⟨_, _, heq, -⟩
    · rw [hact'] at hrun'
      cases hrun'
    · cases heq
      rw [hact] at hrun
      rw [hact'] at hrun'
      cases hrun
      cases hrun'
      have hkind := Expr.kind_congr (h.seen hsite) hvalue hvalue'
      exact ⟨.normal (congrArg some hkind), h.declare hsite target hkind⟩
    · cases heq
  · rcases Action.run_cases (o'.scope site) position (.ret expr) state' with
      ⟨e, -, hact'⟩ | ⟨_, _, _, heq, -⟩ | ⟨_, value', heq, hvalue', hact'⟩
    · rw [hact'] at hrun'
      cases hrun'
    · cases heq
    · cases heq
      rw [hact] at hrun
      rw [hact'] at hrun'
      cases hrun
      cases hrun'
      exact ⟨.returned (Expr.kind_congr (h.seen hsite) hvalue hvalue'), h⟩

/-- An ending that was reached without an error had none at first. -/
theorem Ending.exists_ok_of_andThen {ending : Ending} {go : Option Value → Run → Ending}
    (h : ending.andThen go = (.ok c, next)) : ∃ first mid, ending = (.ok first, mid) := by
  obtain ⟨outcome, mid⟩ := ending
  cases outcome with
  | error e => cases h
  | ok first => exact ⟨first, mid, rfl⟩

/-- **Two runs of the same steps** that do not fail go through the same kinds.
The values may differ throughout, and so may the scopes in which they are kept;
neither decides which step comes next. -/
theorem Step.runAll_sameKinds (steps : List Step) :
    ∀ {count : Nat} {last last' : Option Value} {state state' : Run}, Placed count steps →
      SameKinds o o' count state.scopes state'.scopes →
      last.map Value.kind = last'.map Value.kind →
      runAll o.scope last steps state = (.ok c, next) →
      runAll o'.scope last' steps state' = (.ok c', next') →
      c.SameKind c' ∧ ∃ count', SameKinds o o' count' next.scopes next'.scopes := by
  induction steps with
  | nil =>
      intro count last last' state state' _ hsame hlast hrun hrun'
      cases hrun
      cases hrun'
      exact ⟨.normal hlast, count, hsame⟩
  | cons step rest ih =>
      intro count last last' state state' hplaced hsame hlast hrun hrun'
      rw [runAll_cons] at hrun hrun'
      cases step with
      | enter site => exact ih hplaced.2 (hsame.create hplaced.1) rfl hrun hrun'
      | act site vertex =>
          obtain ⟨first, mid, hact⟩ := Ending.exists_ok_of_andThen hrun
          obtain ⟨first', mid', hact'⟩ := Ending.exists_ok_of_andThen hrun'
          obtain ⟨hfirst, hmid⟩ := Action.run_sameKinds hsame hplaced.1 hact hact'
          rw [hact] at hrun
          rw [hact'] at hrun'
          cases hfirst with
          | normal hvalue => exact ih hplaced.2 hmid hvalue hrun hrun'
          | returned hvalue =>
              -- Both runs end here.
              cases hrun
              cases hrun'
              exact ⟨.returned hvalue, count, hmid⟩

end Runs

namespace Stmt

/-- A program with a result has run without an error. -/
theorem execute_eq_of_evaluate_ok {program : Stmt} {env : Environment} {scope : ScopeId}
    {value : Option Value} (h : (program.evaluate env scope).1 = .ok value) :
    ∃ c final, program.execute env scope = (.ok c, final) ∧ c.value? = value ∧
      (program.evaluate env scope).2 = final.scopes := by
  unfold evaluate at h ⊢
  generalize program.execute env scope = ending at h ⊢
  obtain ⟨outcome, final⟩ := ending
  cases outcome with
  | error e => cases h
  | ok c => exact ⟨c, final, rfl, Except.ok.inj h, rfl⟩

/-- **Numeric kinds are static.**  Two environments are given, and a scope in each, from which every
name is seen in both with the same kind or in neither.  If a program has a result in both, the
results have the same kind or there is no value in either; both runs have created equally many
scopes, those with the same number lie below scopes that correspond and bind the same names to
values of the same kinds, and from the scopes of the start the same kinds are seen as well.
Moreover, the value of an expression is floating exactly if the expression contains a floating
literal, a variable with a floating value, or one of the operators `/` and `**`, and an integer
otherwise. -/
theorem kinds_are_static :
    (∀ (program : Stmt) (env env' : Environment) (scope scope' : ScopeId),
      env.Grown → env'.Grown → ∀ (hscope : scope < env.size) (hscope' : scope' < env'.size),
      (∀ name, (env.lookup scope name).map Value.kind = (env'.lookup scope' name).map Value.kind) →
      ∀ value value', (program.evaluate env scope).1 = .ok value →
        (program.evaluate env' scope').1 = .ok value' →
        value.map Value.kind = value'.map Value.kind ∧
          ∃ count, SameKinds ⟨scope, env.size, hscope⟩ ⟨scope', env'.size, hscope'⟩ count
            (program.evaluate env scope).2 (program.evaluate env' scope').2) ∧
      ∀ (env : Environment) (scope : ScopeId) (e : Expr) (v : Value),
        e.evaluate env scope = .ok v →
          (v.kind = .float ↔ (∃ x, .float x ∈ e.literals) ∨
            (∃ name ∈ e.reads, ∃ x, env.lookup scope name = some (.float x)) ∨
            .floatDiv ∈ e.operators ∨ .exponentiation ∈ e.operators) := by
  constructor
  · intro program env env' scope scope' grown grown' hscope hscope' hseen v v' hvalue hvalue'
    obtain ⟨c, final, hrun, rfl, hfinal⟩ := execute_eq_of_evaluate_ok hvalue
    obtain ⟨c', final', hrun', rfl, hfinal'⟩ := execute_eq_of_evaluate_ok hvalue'
    let o : Origin := ⟨scope, env.size, hscope⟩
    let o' : Origin := ⟨scope', env'.size, hscope'⟩
    have hsteps : Step.runAll o.scope none program.trail (.start env) = (.ok c, final) :=
      (execute_eq_runAll program env scope).symm.trans hrun
    have hsteps' : Step.runAll o'.scope none program.trail (.start env') = (.ok c', final') :=
      (execute_eq_runAll program env' scope').symm.trans hrun'
    have hstart : SameKinds o o' 0 env env' := .start grown grown' (funext hseen)
    obtain ⟨hkind, hsame⟩ :=
      Step.runAll_sameKinds program.trail program.placed_trail hstart rfl hsteps hsteps'
    rw [hfinal, hfinal']
    exact ⟨hkind.value?_eq, hsame⟩
  · intro env scope e v h
    exact (Expr.kind_of_evaluate h).trans Expr.hasFloating_iff

/-- The second environment has one scope more, which hides a floating binding by an integral one.
In the program a name changes its kind in a nested block and keeps it outside, and the run ends at a
return inside; the values are different everywhere. -/
theorem kinds_are_static_of_shadowing :
    let env : Environment := ScopeTree.withRoot.declare 0 "x" (.int 2)
    let env' : Environment :=
      ((ScopeTree.withRoot.declare 0 "x" (.float 0.5)).create (some 0)).declare 1 "x" (.int 7)
    let program : Stmt := .block [
      .assign "y" (.binary .times (.variable "x") (.variable "x")),
      .block [.assign "x" (.binary .floatDiv (.variable "y") (.literal (.int 2))),
        .assign "y" (.binary .plus (.variable "y") (.literal (.int 1)))],
      .block [.ret (.binary .intDiv (.variable "y") (.variable "x"))],
      .assign "z" (.variable "x")]
    let sum : Expr := .binary .plus (.variable "x") (.literal (.int 1))
    env.Grown ∧ env'.Grown ∧ 0 < env.size ∧ 1 < env'.size ∧
      (∀ name, (env.lookup 0 name).map Value.kind = (env'.lookup 1 name).map Value.kind) ∧
      (program.evaluate env 0).1 = .ok (some (.int 2)) ∧
      (program.evaluate env' 1).1 = .ok (some (.int 7)) ∧
      (program.evaluate env 0).2.kindsIn 2 = (program.evaluate env' 1).2.kindsIn 3 ∧
      (program.evaluate env 0).2.kindsIn 2 "x" = some .float ∧
      (program.evaluate env 0).2.kindsIn 2 "y" = some .int ∧
      ∃ v, sum.evaluate env' 0 = .ok v ∧ v.kind = .float := by
  intro env env' program sum
  have hroot : (ScopeTree.withRoot : Environment).Grown := .root .empty
  have hbound : ∀ value : Value, (ScopeTree.withRoot.declare 0 "x" value).Grown :=
    fun value => .declare "x" value hroot (by decide)
  have hchild : ((ScopeTree.withRoot.declare 0 "x" (Value.float 0.5)).create (some 0)).Grown :=
    .child (hbound _) (by decide)
  have grown : env.Grown := hbound _
  have grown' : env'.Grown := .declare "x" _ hchild (by decide)
  have hscope : 0 < env.size := by decide
  have hscope' : 1 < env'.size := by decide
  -- An integer is seen under the one name from both starts, and nothing else is seen.
  have hseen : ∀ name,
      (env.lookup 0 name).map Value.kind = (env'.lookup 1 name).map Value.kind := by
    intro name
    by_cases hname : name = "x"
    · subst hname
      decide
    · have houter : ∀ value : Value,
          (ScopeTree.withRoot.declare 0 "x" value).lookup 0 name = none := by
        intro value
        rw [hroot.ranked.lookup_declare_self (by decide), if_neg hname]
        rfl
      have hinner : env'.lookup 1 name = none := by
        rw [hchild.ranked.lookup_declare_self (by decide), if_neg hname]
        exact ((hbound _).ranked.lookup_create_self (by decide) name).trans (houter _)
      rw [houter, hinner]
  have hvalue : (program.evaluate env 0).1 = .ok (some (.int 2)) := by decide +kernel
  have hvalue' : (program.evaluate env' 1).1 = .ok (some (.int 7)) := by decide +kernel
  obtain ⟨-, count, hsame⟩ := kinds_are_static.1 program env env' 0 1 grown grown' hscope hscope'
    hseen _ _ hvalue hvalue'
  have hcount : 1 < count := by
    have hsize : (program.evaluate env 0).2.size = 1 + count := hsame.size_eq
    have hfour : (program.evaluate env 0).2.size = 4 := by decide +kernel
    omega
  refine ⟨grown, grown', hscope, hscope', hseen, hvalue, hvalue', hsame.bound_eq 1 hcount,
    by decide +kernel, by decide +kernel, _, rfl, ?_⟩
  exact (kinds_are_static.2 env' 0 sum _ rfl).mpr (.inr (.inl ⟨"x", by decide, 0.5, rfl⟩))

end Stmt

end StraightLine
