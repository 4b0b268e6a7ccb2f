import StraightLine.Proofs.Frames
import StraightLine.Proofs.Occurrences
import StraightLine.Proofs.Resolution

/-!
# What a read can see

Resolution declares names in an arena while it walks over a program.  Which reads it records can be
said without the walk, from where statements stand: a name is visible to a statement if it was
visible before the program, or if an assignment to it stands earlier in the block of the statement,
or earlier in a block around that one, before the nested block.

## Main definitions

* `Place`, `Stmt.at?` — where a statement stands in a program.
* `Stmt.reads` — the variable reads of a program in text order, each with its place.
* `Stmt.AssignedBefore` — an assignment to a name stands where a place can see it.

## Main statements

* `Stmt.assignedBefore_cons` — what a statement sees: what is assigned directly in the block before
  it, and what it sees inside its part of the block.
* `Stmt.resolveAt_reads` — a pass over a statement records the reads that see no assignment.
* `Stmt.unresolved_reads` — the same for a program, with the verdict.

## Design notes

* **A place leads from the outside in,** one index a block.  What is visible from it are the smaller
  indices at each level, so an assignment inside a closed block is never in sight: its own place is
  longer than the level at which the block is passed by.
* **The arena enters through one equivalence:** while a block is passed, its scope sees exactly what
  the scope around sees and what the statements before have assigned directly in the block.
  `ScopeTree.Spares` carries it over the scopes that nested blocks leave behind.
-/

namespace StraightLine

/-- Where a statement stands in a program: for every block around it, the
outermost first, the number of statements before it.  The empty place is the
program itself. -/
abbrev Place := List Nat

/-- A variable read with the place of the statement that it stands in. -/
structure PlacedRead where
  place : Place
  read : Read
  deriving DecidableEq

/-- A read seen from the block around: it stands in the statement with the given index. -/
def PlacedRead.inside (index : Nat) (r : PlacedRead) : PlacedRead :=
  { r with place := index :: r.place }

namespace Stmt

/-- The statement at a place, if the place leads somewhere: inside an action
there is nothing, and an index can lie behind the last statement. -/
def at? : Place → Stmt → Option Stmt
  | [], s => some s
  | _ :: _, .action _ => none
  | index :: inner, .block body => body[index]?.bind (at? inner)

mutual

/-- The variable reads of a statement in text order, repeats kept. -/
def readsAt (position : Nat) : Stmt → List PlacedRead
  | .action a => a.value.reads.map fun name => ⟨[], ⟨name, position⟩⟩
  | .block body => readsFrom 0 position body

/-- The variable reads of statements of one block, the first of them with the given index. -/
def readsFrom (index position : Nat) : List Stmt → List PlacedRead
  | [] => []
  | s :: rest =>
    (readsAt position s).map (·.inside index) ++
      readsFrom (index + 1) (position + s.actionCount) rest

end

/-- The variable reads of a program in text order, repeats kept. -/
def reads (program : Stmt) : List PlacedRead := program.readsAt 0

/-- An assignment to a name stands earlier directly in the block of a place, or,
before the nested block with the place, directly in one of the blocks around.

This mentions neither scopes nor the order of a pass.  The place is cut at some
level into `outer ++ index :: inner`, and the assignment stands in the same
block at a smaller index; being directly in the block is what keeps assignments
of closed inner blocks out. -/
def AssignedBefore (program : Stmt) (place : Place) (name : String) : Prop :=
  ∃ outer index inner earlier value, place = outer ++ index :: inner ∧ earlier < index ∧
    program.at? (outer ++ [earlier]) = some (.assign name value)

/-! ## Places -/

theorem not_assignedBefore_nil (s : Stmt) (name : String) : ¬ s.AssignedBefore [] name := by
  rintro ⟨outer, index, inner, earlier, value, hplace, -⟩
  cases outer <;> cases hplace

theorem not_assignedBefore_action (a : Action) (place : Place) (name : String) :
    ¬ (Stmt.action a).AssignedBefore place name := by
  rintro ⟨outer, index, inner, earlier, value, -, -, hat⟩
  cases outer <;> cases hat

/-- A place in a block sees what is assigned directly in the block before its
index, and what it sees inside the statement with that index.  A pass over a
block follows exactly this split, so the definition is not opened again after
this lemma. -/
theorem assignedBefore_cons (body : List Stmt) (index : Nat) (inner : Place) (name : String) :
    (Stmt.block body).AssignedBefore (index :: inner) name ↔
      (∃ value, Stmt.assign name value ∈ body.take index) ∨
        ∃ s, body[index]? = some s ∧ s.AssignedBefore inner name := by
  have hat : ∀ earlier : Nat, (Stmt.block body).at? [earlier] = body[earlier]? := by
    intro earlier
    show (body[earlier]?).bind some = _
    exact Option.bind_fun_some _
  have htake : ∀ value, Stmt.assign name value ∈ body.take index ↔
      ∃ earlier < index, body[earlier]? = some (Stmt.assign name value) := by
    intro value
    rw [List.mem_iff_getElem?]
    refine exists_congr fun earlier => ?_
    rw [List.getElem?_take]
    by_cases hlt : earlier < index <;> simp [hlt]
  constructor
  · rintro ⟨outer, index', inner', earlier, value, hplace, hlt, hassign⟩
    cases outer with
    | nil =>
        cases hplace
        exact Or.inl ⟨value, (htake value).mpr ⟨earlier, hlt, (hat earlier).symm.trans hassign⟩⟩
    | cons first outer =>
        cases hplace
        obtain ⟨s, hs, hassign⟩ := Option.bind_eq_some_iff.mp hassign
        exact Or.inr ⟨s, hs, outer, index', inner', earlier, value, rfl, hlt, hassign⟩
  · rintro (⟨value, hmem⟩ | ⟨s, hs, outer, index', inner', earlier, value, rfl, hlt, hassign⟩)
    · obtain ⟨earlier, hlt, hassign⟩ := (htake value).mp hmem
      exact ⟨[], index, inner, earlier, value, rfl, hlt, (hat earlier).trans hassign⟩
    · refine ⟨index :: outer, index', inner', earlier, value, rfl, hlt, ?_⟩
      show (body[index]?).bind (at? (outer ++ [earlier])) = _
      rw [hs]
      exact hassign

/-- Whether a statement is an assignment to a name. -/
def assigns (name : String) : Stmt → Bool
  | .action (.assign target _) => target == name
  | _ => false

theorem assigns_iff {name : String} {s : Stmt} :
    s.assigns name = true ↔ ∃ value, s = .assign name value := by
  cases s with
  | action a => cases a <;> simp [assigns]
  | block body => simp [assigns]

instance decidableAssignedBefore :
    (place : Place) → (s : Stmt) → (name : String) → Decidable (s.AssignedBefore place name)
  | [], s, name => isFalse (not_assignedBefore_nil s name)
  | _ :: _, .action a, name => isFalse (not_assignedBefore_action a _ name)
  | index :: inner, .block body, name =>
    have sees (s : Stmt) : Decidable (s.AssignedBefore inner name) :=
      decidableAssignedBefore inner s name
    decidable_of_iff
      ((body.take index).any (assigns name) = true ∨
        body[index]?.any (fun s => decide (s.AssignedBefore inner name)) = true)
      (by
        rw [assignedBefore_cons, List.any_eq_true, Option.any_eq_true]
        simp only [assigns_iff, decide_eq_true_eq]
        refine or_congr_left ⟨?_, ?_⟩
        · rintro ⟨_, hmem, value, rfl⟩
          exact ⟨value, hmem⟩
        · rintro ⟨value, hmem⟩
          exact ⟨_, hmem, value, rfl⟩)

/-! ## The reads of a program -/

/-- The reads of a program are those of its actions, action by action. -/
theorem map_read_readsAt :
    (∀ (s : Stmt) (position : Nat), (s.readsAt position).map (·.read) =
        (Occurrence.number position s.actions).flatMap fun v =>
          v.action.value.reads.map (⟨·, v.position⟩)) ∧
      ∀ (body : List Stmt) (index position : Nat), (readsFrom index position body).map (·.read) =
        (Occurrence.number position (actionsOf body)).flatMap fun v =>
          v.action.value.reads.map (⟨·, v.position⟩) := by
  refine Stmt.induction ?action ?block ?nil ?cons
  case action =>
    intro a position
    simp [readsAt]
  case block =>
    intro body ih position
    rw [readsAt, actions_block]
    exact ih 0 position
  case nil =>
    intro index position
    rfl
  case cons =>
    intro s rest ihs ihrest index position
    have hinside : ((s.readsAt position).map (·.inside index)).map (·.read) =
        (s.readsAt position).map (·.read) := by
      rw [List.map_map]
      rfl
    rw [readsFrom, List.map_append, hinside, ihs, ihrest, actionsOf_cons,
      Occurrence.number_append, List.flatMap_append, length_actions.1]

/-- A read stands in the action at its place. -/
theorem at?_of_mem_readsAt :
    (∀ (s : Stmt) (position : Nat), ∀ r ∈ s.readsAt position,
        ∃ a, s.at? r.place = some (.action a) ∧ r.read.name ∈ a.value.reads) ∧
      ∀ (body done : List Stmt) (position : Nat), ∀ r ∈ readsFrom done.length position body,
        ∃ a, (Stmt.block (done ++ body)).at? r.place = some (.action a) ∧
          r.read.name ∈ a.value.reads := by
  refine Stmt.induction ?action ?block ?nil ?cons
  case action =>
    intro a position r hr
    rw [readsAt] at hr
    obtain ⟨name, hname, rfl⟩ := List.mem_map.mp hr
    exact ⟨a, rfl, hname⟩
  case block =>
    intro body ih position r hr
    rw [readsAt] at hr
    exact ih [] position r hr
  case nil =>
    intro done position r hr
    cases hr
  case cons =>
    intro s rest ihs ihrest done position r hr
    rw [readsFrom] at hr
    rcases List.mem_append.mp hr with hr | hr
    · obtain ⟨inner, hinner, rfl⟩ := List.mem_map.mp hr
      obtain ⟨a, hat, hname⟩ := ihs position inner hinner
      refine ⟨a, ?_, hname⟩
      show ((done ++ s :: rest)[done.length]?).bind (at? inner.place) = _
      rw [List.getElem?_append_right (Nat.le_refl _), Nat.sub_self]
      exact hat
    · have h := ihrest (done ++ [s]) (position + s.actionCount) r
      rw [List.length_append, List.length_singleton, List.append_assoc] at h
      exact h hr

/-! ## Resolution -/

/-- A read sees neither what is visible from outside nor an earlier assignment.
It is decidable, so the recorded reads are a filter of all reads, in text order
and with repeats. -/
def misses (visible : String → Bool) (program : Stmt) (r : PlacedRead) : Bool :=
  !visible r.read.name && !decide (program.AssignedBefore r.place r.read.name)

/-- Seen from the block around, a statement also sees what is assigned before it
in the block.  Here `visible` grows while a pass goes through a block: it is the
parameter that stands for the scopes around. -/
theorem misses_inside (visible : String → Bool) (done rest : List Stmt) (s : Stmt)
    (r : PlacedRead) :
    misses visible (.block (done ++ s :: rest)) (r.inside done.length) =
      misses (fun name => visible name || done.any (assigns name)) s r := by
  have hbefore : (Stmt.block (done ++ s :: rest)).AssignedBefore (done.length :: r.place)
      r.read.name ↔ done.any (assigns r.read.name) = true ∨
        s.AssignedBefore r.place r.read.name := by
    rw [assignedBefore_cons, List.take_left' rfl, List.getElem?_append_right (Nat.le_refl _),
      Nat.sub_self, List.any_eq_true]
    refine or_congr ⟨?_, ?_⟩ ⟨?_, ?_⟩
    · rintro ⟨value, hmem⟩
      exact ⟨_, hmem, assigns_iff.mpr ⟨value, rfl⟩⟩
    · rintro ⟨t, hmem, hassigns⟩
      obtain ⟨value, rfl⟩ := assigns_iff.mp hassigns
      exact ⟨value, hmem⟩
    · rintro ⟨t, ht, hbefore⟩
      cases ht
      exact hbefore
    · intro hbefore
      exact ⟨s, rfl, hbefore⟩
  rw [misses, misses]
  show (!visible r.read.name && !decide ((Stmt.block (done ++ s :: rest)).AssignedBefore
    (done.length :: r.place) r.read.name)) = _
  rw [decide_eq_decide.mpr hbefore, Bool.decide_or, Bool.decide_coe]
  cases visible r.read.name <;> simp

/-- The reads of a statement that see no declaration of their name, in text order. -/
def missedAt (visible : String → Bool) (position : Nat) (s : Stmt) : List Read :=
  ((s.readsAt position).filter (s.misses visible)).map (·.read)

/-- The same for the statements of a block behind others. -/
def missedFrom (visible : String → Bool) (done : List Stmt) (position : Nat) (rest : List Stmt) :
    List Read :=
  ((readsFrom done.length position rest).filter
    (misses visible (.block (done ++ rest)))).map (·.read)

theorem missedAt_action (visible : String → Bool) (position : Nat) (a : Action) :
    (Stmt.action a).missedAt visible position =
      (a.value.reads.filter (!visible ·)).map (⟨·, position⟩) := by
  have hmisses : ∀ name, misses visible (.action a) ⟨[], ⟨name, position⟩⟩ = !visible name := by
    intro name
    rw [misses, decide_eq_false (not_assignedBefore_action a _ _)]
    exact Bool.and_true _
  rw [missedAt, readsAt, List.filter_map, List.map_map]
  exact congrArg (List.map _) (List.filter_congr fun name _ => hmisses name)

theorem missedAt_block (visible : String → Bool) (position : Nat) (body : List Stmt) :
    (Stmt.block body).missedAt visible position = missedFrom visible [] position body := rfl

theorem missedFrom_cons (visible : String → Bool) (done : List Stmt) (position : Nat) (s : Stmt)
    (rest : List Stmt) :
    missedFrom visible done position (s :: rest) =
      s.missedAt (fun name => visible name || done.any (assigns name)) position ++
        missedFrom visible (done ++ [s]) (position + s.actionCount) rest := by
  have hfirst : ((s.readsAt position).map (·.inside done.length)).filter
      (misses visible (.block (done ++ s :: rest))) =
        ((s.readsAt position).filter
          (s.misses fun name => visible name || done.any (assigns name))).map
          (·.inside done.length) := by
    rw [List.filter_map]
    refine congrArg (List.map _) (List.filter_congr fun r _ => ?_)
    exact misses_inside visible done rest s r
  rw [missedFrom, readsFrom, List.filter_append, hfirst, List.map_append, List.map_map, missedAt,
    missedFrom, List.length_append, List.length_singleton, List.append_assoc]
  rfl

open ScopeTree

/-- **A pass over a statement records the reads that see no declaration.** It
spares the scopes that are not concerned, and afterwards its scope sees one name
more if the statement is an assignment.

All three parts are needed for the next statement of the block: which names it
sees is the third, that this is still so after nested blocks is the first.  The
function `visible` only has to agree with what the scope sees, so nothing else
about the tree enters. -/
theorem resolveAt_reads :
    (∀ (s : Stmt) (scope : ScopeId) (position : Nat) (r : Resolver), r.scopes.Ranked →
        scope < r.scopes.size →
        Spares scope r.scopes (s.resolveAt scope position r).2.scopes ∧
          (s.resolveAt scope position r).2.unresolvedReads =
            r.unresolvedReads ++ s.missedAt (r.scopes.contains scope) position ∧
          ∀ name, (s.resolveAt scope position r).2.scopes.contains scope name =
            (r.scopes.contains scope name || s.assigns name)) ∧
      ∀ (rest done : List Stmt) (visible : String → Bool) (scope : ScopeId) (position : Nat)
        (valid : Bool) (r : Resolver), r.scopes.Ranked → scope < r.scopes.size →
        (∀ name, r.scopes.contains scope name = (visible name || done.any (assigns name))) →
        Spares scope r.scopes (resolveAll scope position valid rest r).2.scopes ∧
          (resolveAll scope position valid rest r).2.unresolvedReads =
            r.unresolvedReads ++ missedFrom visible done position rest := by
  refine Stmt.induction ?action ?block ?nil ?cons
  case action =>
    intro a scope position r ranked hscope
    obtain ⟨hscopes, hreads, -⟩ := a.resolve_spec scope position r
    rw [resolveAt, hscopes, hreads, missedAt_action]
    cases a with
    | assign target value =>
        refine ⟨.declare ranked target (), rfl, fun name => ?_⟩
        rw [Action.declareIn, Bool.eq_iff_iff, contains_declare hscope, Bool.or_eq_true, assigns,
          beq_iff_eq]
        exact or_congr_right
          ⟨fun h => h.1.symm, fun h => ⟨h.symm, self_mem_ancestors hscope⟩⟩
    | ret value => exact ⟨.refl ranked, rfl, fun name => (Bool.or_false _).symm⟩
  case block =>
    intro body ih scope position r ranked hscope
    have hall : ∀ p ∈ some scope, p < r.scopes.size := by simpa using hscope
    -- A fresh scope sees what the scope around sees.
    have hvisible : ∀ name, (r.enter scope).scopes.contains r.scopes.size name =
        (r.scopes.contains scope name || ([] : List Stmt).any (assigns name)) := by
      intro name
      rw [List.any_nil, Bool.or_false]
      exact (ranked.contains_create hscope r.scopes.size name).trans (if_pos rfl)
    obtain ⟨hspares, hreads⟩ :=
      ih [] (r.scopes.contains scope) r.scopes.size position true (r.enter scope)
        (ranked.create hall) (r.lt_size_enter scope) hvisible
    obtain ⟨hspares, hkept⟩ := hspares.of_create ranked hscope
    rw [resolveAt]
    refine ⟨hspares, hreads, fun name => ?_⟩
    rw [contains_eq_of_frames_eq (hkept scope hscope)]
    exact (Bool.or_false _).symm
  case nil =>
    intro done visible scope position valid r ranked _ _
    rw [resolveAll]
    exact ⟨.refl ranked, (List.append_nil _).symm⟩
  case cons =>
    intro s rest ihs ihrest done visible scope position valid r ranked hscope hvisible
    obtain ⟨hspares, hreads, hcontains⟩ := ihs scope position r ranked hscope
    have hvisible' : ∀ name, (s.resolveAt scope position r).2.scopes.contains scope name =
        (visible name || (done ++ [s]).any (assigns name)) := by
      intro name
      rw [hcontains, hvisible, List.any_append, List.any_cons, List.any_nil, Bool.or_false,
        Bool.or_assoc]
    obtain ⟨hrest, hlater⟩ :=
      ihrest (done ++ [s]) visible scope (position + s.actionCount)
        ((s.resolveAt scope position r).1 && valid) (s.resolveAt scope position r).2
        hspares.ranked (Nat.lt_of_lt_of_le hscope hspares.size_le) hvisible'
    rw [resolveAll]
    refine ⟨hspares.trans hrest, ?_⟩
    rw [hlater, hreads, missedFrom_cons, List.append_assoc, funext hvisible]

/-- **Which reads resolution records.**  The reads of a program are listed in text order, each with
the action it stands in.  A fresh pass from a scope of a tree grown by creation and declaration
records exactly those whose name is not visible from the scope at the start and to whose name no
assignment stands earlier directly in the block of the read, or, before the nested block, directly
in a block around.  The program resolves if and only if no read is recorded. -/
theorem unresolved_reads {decls : Declarations} {scope : ScopeId} (program : Stmt)
    (grown : decls.Grown) (hscope : scope < decls.size) :
    (program.reads.map (·.read) = program.occurrences.flatMap fun v =>
        v.action.value.reads.map (⟨·, v.position⟩)) ∧
      (∀ r ∈ program.reads,
        ∃ a, program.at? r.place = some (.action a) ∧ r.read.name ∈ a.value.reads) ∧
      (program.resolve scope (.start decls)).2.unresolved =
        (program.reads.filter fun r => ¬ decls.contains scope r.read.name = true ∧
          ¬ program.AssignedBefore r.place r.read.name).map (·.read.name) ∧
      (program.resolves decls scope = true ↔
        (program.resolve scope (.start decls)).2.unresolved = []) := by
  obtain ⟨-, hreads, -⟩ :=
    resolveAt_reads.1 program scope 0 (.start decls) grown.ranked hscope
  refine ⟨map_read_readsAt.1 program 0, at?_of_mem_readsAt.1 program 0, ?_, ?_⟩
  · have hfilter : program.misses (decls.contains scope) = fun r : PlacedRead =>
        decide (¬ decls.contains scope r.read.name = true ∧
          ¬ program.AssignedBefore r.place r.read.name) := by
      funext r
      rw [misses, Bool.decide_and, decide_not, decide_not, Bool.decide_coe]
    rw [Resolver.unresolved]
    show (program.resolveAt scope 0 (.start decls)).2.unresolvedReads.map _ = _
    rw [hreads, Resolver.unresolvedReads_start, List.nil_append, missedAt, List.map_map, ← hfilter]
    rfl
  · rw [resolves_iff, Resolver.unresolved, List.map_eq_nil_iff]

/-- An initialiser does not see its own target, a nested block sees what stands before it around,
nothing sees into a closed block, and reads and assignments behind a return count like any other. -/
theorem unresolved_reads_of_closed_block :
    let decls : Declarations := ScopeTree.withRoot.declare 0 "d" ()
    let program : Stmt := .block [
      .assign "a" (.binary .plus (.variable "a") (.variable "d")),
      .block [.assign "b" (.variable "a"), .block [.ret (.variable "b")]],
      .ret (.variable "b"),
      .assign "c" (.literal (.int 1)),
      .assign "b" (.binary .plus (.variable "c") (.variable "b"))]
    decls.Grown ∧ 0 < decls.size ∧
      (program.resolve 0 (.start decls)).2.unresolved = ["a", "b", "b"] ∧
      program.resolves decls 0 = false := by
  intro decls program
  have hroot : (ScopeTree.withRoot : Declarations).Grown := .root .empty
  have grown : decls.Grown := .declare "d" () hroot (by decide)
  have hscope : 0 < decls.size := by decide
  obtain ⟨-, -, hunresolved, hverdict⟩ := unresolved_reads program grown hscope
  have hnames : (program.resolve 0 (.start decls)).2.unresolved = ["a", "b", "b"] :=
    hunresolved.trans (by decide)
  rw [hnames] at hverdict
  refine ⟨grown, hscope, hnames, Bool.eq_false_iff.mpr fun h => ?_⟩
  cases hverdict.mp h

end Stmt

end StraightLine
