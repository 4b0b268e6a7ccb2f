import StraightLine.Proofs.Occurrences
import StraightLine.ScopeTree

/-!
# Programs as sequences of steps

A pass over a program opens a scope for every block and does something for every action, in text
order.  The trail of a program is that sequence, with the scope in which each step happens; it is
known before the program runs.

## Main definitions

* `Site` — a scope as a program sees it: the one it was started in, or the one of a block.
* `Step` — opening a block, or an action.
* `Stmt.trail` — the steps of a program.

## Main statements

* `Stmt.vertices_trail` — the actions on the trail are the occurrences of the program.
* `Stmt.placed_trail` — every step happens in a scope that was opened before.

## Design notes

* **Blocks are numbered in text order.**  A scope that a pass creates is named by the number of
  scopes there were before, so the `k`-th block of a program gets the `k`-th scope behind those that
  existed, for every pass and every tree that it is run on.  This is why the trail can say where a
  step happens.
* **No step closes a block.**  What comes behind a block happens in the scope around it, and that
  scope is named by the later steps themselves.
-/

namespace StraightLine

/-- A scope as seen from a program.  What identity it gets depends on the tree
that the program is run on, which site it is does not. -/
inductive Site where
  /-- The scope in which the program was started. -/
  | outer
  /-- The scope of a block, by its number in text order. -/
  | block (number : Nat)
  deriving DecidableEq

namespace Site

/-- The scope that a site stands for, when the program was started in scope `start` of a tree with
`size` scopes. -/
def scope (start size : Nat) : Site → ScopeId
  | .outer => start
  | .block number => size + number

@[simp] theorem scope_outer (start size : Nat) : outer.scope start size = start := rfl

@[simp] theorem scope_block (start size number : Nat) :
    (block number).scope start size = size + number := rfl

/-- Whether a site is available after a number of blocks has been opened.  The
block need not be open still: a closed block keeps its scope, and the trail does
not say where a block ends. -/
def Opened (count : Nat) : Site → Prop
  | .outer => True
  | .block number => number < count

theorem Opened.mono {site : Site} {count count' : Nat} (h : site.Opened count)
    (hle : count ≤ count') : site.Opened count' := by
  cases site with
  | outer => trivial
  | block number => exact Nat.lt_of_lt_of_le h hle

end Site

/-- One step of a pass over a program.  Closing a block is no step, since a pass
does nothing then. -/
inductive Step where
  /-- A block is opened below a scope. -/
  | enter (site : Site)
  /-- An action stands in a scope. -/
  | act (site : Site) (vertex : Occurrence)

namespace Step

/-- The action of a step. -/
def vertex? : Step → Option Occurrence
  | .enter _ => none
  | .act _ vertex => some vertex

/-- The actions of a sequence of steps. -/
def vertices (steps : List Step) : List Occurrence := steps.filterMap vertex?

@[simp] theorem vertices_nil : vertices [] = [] := rfl

@[simp] theorem vertices_enter (site : Site) (rest : List Step) :
    vertices (.enter site :: rest) = vertices rest := rfl

@[simp] theorem vertices_act (site : Site) (vertex : Occurrence) (rest : List Step) :
    vertices (.act site vertex :: rest) = vertex :: vertices rest := rfl

@[simp] theorem vertices_append (xs ys : List Step) :
    vertices (xs ++ ys) = vertices xs ++ vertices ys := List.filterMap_append ..

/-- Every step happens in a scope that is available, when `count` blocks are
open at first.  It is the invariant of inductions over a trail: each step needs
a scope that exists, and the count tells how many do. -/
def Placed : Nat → List Step → Prop
  | _, [] => True
  | count, .enter site :: rest => site.Opened count ∧ Placed (count + 1) rest
  | count, .act site _ :: rest => site.Opened count ∧ Placed count rest

/-- The steps up to the first return and those behind it, or no return at all.
This is how the trail of a program is cut where a run has to stop. -/
theorem vertices_cases (steps : List Step) :
    (∀ v ∈ vertices steps, v.action.isReturn = false) ∨
      ∃ before site r after, steps = before ++ .act site r :: after ∧
        (∀ v ∈ vertices before, v.action.isReturn = false) ∧ r.action.isReturn = true := by
  induction steps with
  | nil => exact Or.inl (by simp)
  | cons step rest ih =>
      have hcons : ∀ {before site r after}, rest = before ++ Step.act site r :: after →
          step :: rest = (step :: before) ++ Step.act site r :: after := by
        rintro before site r after rfl
        rfl
      cases step with
      | enter site =>
          rcases ih with hnone | ⟨before, site', r, after, hsplit, hbefore, hr⟩
          · exact Or.inl hnone
          · exact Or.inr ⟨_, site', r, after, hcons hsplit, hbefore, hr⟩
      | act site v =>
          cases hv : v.action.isReturn with
          | true => exact Or.inr ⟨[], site, v, rest, rfl, by simp, hv⟩
          | false =>
              have hfirst : ∀ {vs : List Occurrence}, (∀ w ∈ vs, w.action.isReturn = false) →
                  ∀ w ∈ v :: vs, w.action.isReturn = false := by
                intro vs hvs w hw
                rcases List.mem_cons.mp hw with rfl | hw
                · exact hv
                · exact hvs w hw
              rcases ih with hnone | ⟨before, site', r, after, hsplit, hbefore, hr⟩
              · exact Or.inl (hfirst hnone)
              · exact Or.inr ⟨_, site', r, after, hcons hsplit, hfirst hbefore, hr⟩

end Step

namespace Stmt

mutual

/-- The steps of a statement in a scope, with the numbers of its first block and action. -/
def trailAt (site : Site) (block position : Nat) : Stmt → List Step
  | .action a => [.act site ⟨position, a⟩]
  | .block body => .enter site :: trailOf (.block block) (block + 1) position body

/-- The steps of statements one after the other. -/
def trailOf (site : Site) (block position : Nat) : List Stmt → List Step
  | [] => []
  | s :: rest =>
    trailAt site block position s ++
      trailOf site (block + s.blockCount) (position + s.actionCount) rest

end

/-- The steps of a program.  What a pass does with it is then a fold over a
list, with no nesting left: resolution checks all steps, and a run stops early. -/
def trail (program : Stmt) : List Step := program.trailAt .outer 0 0

@[simp] theorem trailAt_action (site : Site) (block position : Nat) (a : Action) :
    trailAt site block position (.action a) = [.act site ⟨position, a⟩] := by
  simp [trailAt]

@[simp] theorem trailAt_block (site : Site) (block position : Nat) (body : List Stmt) :
    trailAt site block position (.block body) =
      .enter site :: trailOf (.block block) (block + 1) position body := by
  simp [trailAt]

@[simp] theorem trailOf_nil (site : Site) (block position : Nat) :
    trailOf site block position [] = [] := by
  simp [trailOf]

@[simp] theorem trailOf_cons (site : Site) (block position : Nat) (s : Stmt) (rest : List Stmt) :
    trailOf site block position (s :: rest) =
      trailAt site block position s ++
        trailOf site (block + s.blockCount) (position + s.actionCount) rest := by
  simp [trailOf]

@[simp] theorem blockCount_action (a : Action) : (Stmt.action a).blockCount = 0 := by
  simp [blockCount]

@[simp] theorem blockCount_block (body : List Stmt) :
    (Stmt.block body).blockCount = 1 + blockCountOf body := by
  simp [blockCount]

@[simp] theorem blockCountOf_nil : blockCountOf [] = 0 := by simp [blockCountOf]

@[simp] theorem blockCountOf_cons (s : Stmt) (rest : List Stmt) :
    blockCountOf (s :: rest) = s.blockCount + blockCountOf rest := by
  simp [blockCountOf]

theorem blockCountOf_append (xs ys : List Stmt) :
    blockCountOf (xs ++ ys) = blockCountOf xs + blockCountOf ys := by
  induction xs with
  | nil => simp
  | cons s rest ih => rw [List.cons_append, blockCountOf_cons, ih, blockCountOf_cons, Nat.add_assoc]

theorem actionCountOf_append (xs ys : List Stmt) :
    actionCountOf (xs ++ ys) = actionCountOf xs + actionCountOf ys := by
  rw [← length_actions.2, actionsOf_append, List.length_append, length_actions.2, length_actions.2]

/-- What comes behind some statements is numbered on from them, in blocks as
well as in actions. -/
theorem trailOf_append (site : Site) (xs ys : List Stmt) :
    ∀ block position, trailOf site block position (xs ++ ys) =
      trailOf site block position xs ++
        trailOf site (block + blockCountOf xs) (position + actionCountOf xs) ys := by
  induction xs with
  | nil => intro block position; simp
  | cons s rest ih =>
      intro block position
      rw [List.cons_append, trailOf_cons, ih, trailOf_cons, blockCountOf_cons, actionCountOf_cons,
        List.append_assoc, Nat.add_assoc, Nat.add_assoc]

/-- The actions on the trail are the actions of the statement, with the
positions that they have in its flow graph.  So what is said of steps can be
said of vertices. -/
theorem vertices_trailAt :
    (∀ (s : Stmt) (site : Site) (block position : Nat),
        Step.vertices (s.trailAt site block position) = Occurrence.number position s.actions) ∧
      (∀ (body : List Stmt) (site : Site) (block position : Nat),
        Step.vertices (trailOf site block position body) =
          Occurrence.number position (actionsOf body)) := by
  refine Stmt.induction ?action ?block ?nil ?cons
  case action =>
    intro a site block position
    simp
  case block =>
    intro body ih site block position
    simp [ih]
  case nil =>
    intro site block position
    simp
  case cons =>
    intro s rest ihs ihrest site block position
    simp [ihs, ihrest, Occurrence.number_append, length_actions.1]

theorem vertices_trail (program : Stmt) : Step.vertices program.trail = program.occurrences :=
  vertices_trailAt.1 program .outer 0 0

/-- A statement in an available scope leaves its blocks open and is otherwise
well placed.  The rest behind it is part of the statement, since it may use the
scopes of the blocks that stand before it in the count. -/
theorem placed_trailAt_append :
    (∀ (s : Stmt) (site : Site) (block position : Nat) (rest : List Step), site.Opened block →
        Step.Placed (block + s.blockCount) rest →
        Step.Placed block (s.trailAt site block position ++ rest)) ∧
      (∀ (body : List Stmt) (site : Site) (block position : Nat) (rest : List Step),
        site.Opened block → Step.Placed (block + blockCountOf body) rest →
        Step.Placed block (trailOf site block position body ++ rest)) := by
  refine Stmt.induction ?action ?block ?nil ?cons
  case action =>
    intro a site block position rest hsite hrest
    rw [trailAt_action]
    exact ⟨hsite, by simpa using hrest⟩
  case block =>
    intro body ih site block position rest hsite hrest
    rw [trailAt_block]
    -- Inside the block its own scope is available, and behind it it stays so.
    refine ⟨hsite, ih (.block block) (block + 1) position rest (Nat.lt_succ_self block) ?_⟩
    rw [blockCount_block, ← Nat.add_assoc] at hrest
    exact hrest
  case nil =>
    intro site block position rest _ hrest
    simpa using hrest
  case cons =>
    intro s rest ihs ihrest site block position steps hsite hsteps
    rw [trailOf_cons, List.append_assoc]
    refine ihs site block position _ hsite (ihrest site _ _ steps (hsite.mono (by omega)) ?_)
    rw [blockCountOf_cons, ← Nat.add_assoc] at hsteps
    exact hsteps

theorem placed_trail (program : Stmt) : Step.Placed 0 program.trail := by
  have h := placed_trailAt_append.1 program .outer 0 0 [] trivial trivial
  rw [List.append_nil] at h
  exact h

end Stmt

end StraightLine
