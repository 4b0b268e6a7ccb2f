import StraightLine.Construction
import StraightLine.Proofs.Success

/-!
# The defects of a draft

A draft has any number of defects.  Building it finds the first of them from left to right, and if
there is none, it gives the program that the draft spells out.  So a draft can be judged without
being built, by what is missing in it and which names are empty.

## Main definitions

* `Draft.parts`, `StmtDraft.parts`, `StmtDraft.targets` — what a draft consists of.
* `Draft.WellFormed`, `StmtDraft.WellFormed` — nothing is missing and no name is empty.
* `Draft.defectsAt`, `StmtDraft.defects` — all defects in text order.
* `Expr.draft`, `Stmt.draft` — the draft that spells an expression or a statement out.
* `Construction.Reports` — a step of building fails with the first of some defects, or succeeds.

## Main statements

* `Construction.Reports.bind` — of two steps one after the other, the first one that fails reports.
* `Draft.reports_build`, `StmtDraft.reports_build` — building a draft reports its first defect.
* `StmtDraft.build_eq_ok_iff` — what is built is what the draft spells out.
* `StmtDraft.build_finds_first_defect` — building as a whole.

## Design notes

* **An absent part has no defect of its own,** since a message about it names the node around it.
  So the defects of a part are those it has at a place of a node.
* **All defects are listed although at most one is ever reported.**  The list can be taken apart at
  every node, which the first defect alone cannot.
-/

namespace StraightLine

namespace Construction

/-! ## Steps that report -/

variable {α β : Type} {x : Except Defect α} {ds ds' : List Defect}

/-- The step fails with the first of some defects, and succeeds if there are
none.  The list holds also what the step never gets to; so it can be written
down for each node by appending the lists of the parts. -/
def Reports (x : Except Defect α) (ds : List Defect) : Prop :=
  match x with
  | .error d => ds.head? = some d
  | .ok _ => ds = []

namespace Reports

theorem ok (a : α) : Reports (.ok a) [] := rfl

theorem error (d : Defect) (later : List Defect) :
    Reports (.error d : Except Defect α) (d :: later) :=
  rfl

theorem eq_error_iff (h : Reports x ds) {d : Defect} : x = .error d ↔ ds.head? = some d := by
  cases x with
  | error d' =>
      have hfirst : ds.head? = some d' := h
      rw [hfirst, Except.error.injEq, Option.some.injEq]
  | ok a =>
      have hnone : ds = [] := h
      rw [hnone]
      exact ⟨nofun, nofun⟩

theorem exists_ok_iff (h : Reports x ds) : (∃ a, x = .ok a) ↔ ds = [] := by
  cases x with
  | error d =>
      have hfirst : ds.head? = some d := h
      refine ⟨fun ⟨a, ha⟩ => (nomatch ha), fun hnone => ?_⟩
      rw [hnone] at hfirst
      cases hfirst
  | ok a => exact ⟨fun _ => h, fun _ => ⟨a, rfl⟩⟩

/-- Of two steps one after the other, the first one that fails reports.  The
list of the second must not depend on the result of the first, which holds for
all steps of building: what is reported on one part is independent of what
another part has become. -/
theorem bind {f : α → Except Defect β} (h : Reports x ds) (hf : ∀ a, Reports (f a) ds') :
    Reports (x.bind f) (ds ++ ds') := by
  cases x with
  | error d =>
      have hfirst : ds.head? = some d := h
      show (ds ++ ds').head? = some d
      rw [List.head?_append, hfirst, Option.some_or]
  | ok a =>
      have hnone : ds = [] := h
      rw [hnone]
      exact hf a

theorem map {f : α → β} (h : Reports x ds) : Reports (x.map f) ds := by
  cases x <;> exact h

end Reports

/-! ## Nodes -/

variable {left right value : Operand}

theorem reports_reference (name : String) :
    Reports (reference name) (if name.isEmpty then [.emptyIdentifier .variable] else []) := by
  rw [reference]
  split
  · exact .error _ _
  · exact .ok _

/-- An operation reports on its left part before its right part.  Both are built
before either is looked at, but a part that was not built has failed already. -/
theorem reports_binary {op : Operator} (hleft : Reports (require (.operator op) .left left) ds)
    (hright : Reports (require (.operator op) .right right) ds') :
    Reports (binary op left right) (ds ++ ds') := by
  have hbinary : binary op left right = (require (.operator op) .left left).bind fun l =>
      (require (.operator op) .right right).map fun r => .binary op l r := by
    rw [binary]
    cases require (.operator op) .left left with
    | error d => rfl
    | ok l => cases require (.operator op) .right right <;> rfl
  rw [hbinary]
  exact hleft.bind fun l => hright.map

/-- An assignment reports on its target before its value. -/
theorem reports_assign {target : String} (hvalue : Reports (require .assignment .value value) ds) :
    Reports (assign target value)
      ((if target.isEmpty then [.emptyIdentifier .assignment] else []) ++ ds) := by
  have hassign : assign target value =
      if target.isEmpty then .error (.emptyIdentifier .assignment)
      else (require .assignment .value value).map (Stmt.assign target) := by
    rw [assign]
    cases require .assignment .value value <;> rfl
  rw [hassign]
  split
  · exact .error _ _
  · exact hvalue.map

theorem reports_ret (hvalue : Reports (require .ret .value value) ds) :
    Reports (ret value) ds := by
  have hret : ret value = (require .ret .value value).map Stmt.ret := by
    rw [ret]
    cases require .ret .value value <;> rfl
  rw [hret]
  exact hvalue.map

end Construction

open Construction

/-! ## Expressions -/

/-- The draft that spells an expression out. -/
def Expr.draft : Expr → Draft
  | .literal value => .literal value
  | .variable name => .variable name
  | .binary op left right => .binary op left.draft right.draft

namespace Draft

/-- A draft and all drafts inside it. -/
def parts : Draft → List Draft
  | .absent => [.absent]
  | .literal value => [.literal value]
  | .variable name => [.variable name]
  | .binary op left right => .binary op left right :: (left.parts ++ right.parts)

/-- Nothing is absent and no name is empty. -/
def WellFormed (draft : Draft) : Prop :=
  .absent ∉ draft.parts ∧ .variable "" ∉ draft.parts

/-- All defects of a part that stands at a place of a node, from left to right.
An absent part is reported by the node around it and by the place, so the list
is asked for with both. -/
def defectsAt (node : Node) (place : Place) : Draft → List Defect
  | .absent => [.missingOperand node place]
  | .literal _ => []
  | .variable name => if name.isEmpty then [.emptyIdentifier .variable] else []
  | .binary op left right =>
    left.defectsAt (.operator op) .left ++ right.defectsAt (.operator op) .right

theorem wellFormed_binary {op : Operator} {left right : Draft} :
    (binary op left right).WellFormed ↔ left.WellFormed ∧ right.WellFormed := by
  simp only [WellFormed, parts, List.mem_cons, List.mem_append, reduceCtorEq, false_or, not_or]
  exact and_and_and_comm

theorem defectsAt_eq_nil_iff (draft : Draft) (node : Node) (place : Place) :
    draft.defectsAt node place = [] ↔ draft.WellFormed := by
  induction draft generalizing node place with
  | absent => simp [defectsAt, WellFormed, parts]
  | literal value => simp [defectsAt, WellFormed, parts]
  | «variable» name =>
      have hname : Draft.variable "" ∈ («variable» name).parts ↔ name = "" := by
        simp [parts, @eq_comm _ ""]
      rw [WellFormed, hname, defectsAt]
      simp [parts]
  | binary op left right ihleft ihright =>
      rw [defectsAt, List.append_eq_nil_iff, ihleft, ihright, wellFormed_binary]

/-- A part that is there is asked for with success. -/
theorem require_map_some (node : Node) (place : Place) (x : Except Defect Expr) :
    require node place (x.map some) = x := by
  cases x <;> rfl

theorem build_eq_map_require {draft : Draft} (hpresent : draft ≠ .absent) (node : Node)
    (place : Place) : draft.build = (require node place draft.build).map some := by
  cases draft with
  | absent => exact absurd rfl hpresent
  | literal value => rfl
  | «variable» name => rw [build, require_map_some]
  | binary op left right => rw [build, require_map_some]

/-- Building a part reports its first defect. -/
theorem reports_build (draft : Draft) (node : Node) (place : Place) :
    Reports (require node place draft.build) (draft.defectsAt node place) := by
  induction draft generalizing node place with
  | absent => exact .error _ _
  | literal value => exact .ok _
  | «variable» name =>
      rw [build, require_map_some]
      exact reports_reference name
  | binary op left right ihleft ihright =>
      rw [build, require_map_some]
      exact reports_binary (ihleft _ _) (ihright _ _)

end Draft

theorem Expr.wellFormed_draft_iff (e : Expr) : e.draft.WellFormed ↔ e.Named := by
  induction e with
  | literal value => simp [draft, Draft.WellFormed, Draft.parts, Named]
  | «variable» name => simp [draft, Draft.WellFormed, Draft.parts, Named, eq_comm]
  | binary op left right ihleft ihright =>
      rw [draft, Draft.wellFormed_binary, ihleft, ihright]
      simp only [Named, reads_binary, List.forall_mem_append]

/-- An expression without empty names can be built. -/
theorem Expr.build_draft {e : Expr} (he : e.Named) : e.draft.build = .ok (some e) := by
  induction e with
  | literal value => rfl
  | «variable» name =>
      have hname : name.isEmpty = false := by
        simpa using he name (List.mem_singleton_self name)
      rw [draft, Draft.build, reference, hname]
      rfl
  | binary op left right ihleft ihright =>
      have hleft := ihleft fun name h => he name (List.mem_append_left _ h)
      have hright := ihright fun name h => he name (List.mem_append_right _ h)
      rw [draft, Draft.build, hleft, hright]
      rfl

namespace Draft

/-- What is built from a part is what the part spells out. -/
theorem eq_draft_of_build {draft : Draft} {node : Node} {place : Place} {e : Expr}
    (h : require node place draft.build = .ok e) : draft = e.draft := by
  induction draft generalizing node place e with
  | absent => cases h
  | literal value =>
      cases h
      rfl
  | «variable» name =>
      rw [build, require_map_some, reference] at h
      split at h
      · cases h
      · cases h
        rfl
  | binary op left right ihleft ihright =>
      rw [build, require_map_some, Construction.binary] at h
      split at h
      · cases h
      · rename_i l hl
        split at h
        · cases h
        · rename_i r hr
          cases h
          rw [Expr.draft, ← ihleft hl, ← ihright hr]

theorem build_eq_ok_iff {draft : Draft} {node : Node} {place : Place} {e : Expr} :
    require node place draft.build = .ok e ↔ draft = e.draft ∧ draft.WellFormed := by
  constructor
  · intro h
    have hnone := (draft.reports_build node place).exists_ok_iff.mp ⟨e, h⟩
    exact ⟨eq_draft_of_build h, (draft.defectsAt_eq_nil_iff node place).mp hnone⟩
  · rintro ⟨rfl, hformed⟩
    rw [Expr.build_draft ((Expr.wellFormed_draft_iff e).mp hformed)]
    rfl

end Draft

/-! ## Statements -/

mutual

/-- The draft that spells a statement out. -/
def Stmt.draft : Stmt → StmtDraft
  | .action (.assign target value) => .assign target value.draft
  | .action (.ret value) => .ret value.draft
  | .block body => .block (Stmt.drafts body)

/-- The drafts that spell statements out. -/
def Stmt.drafts : List Stmt → List StmtDraft
  | [] => []
  | s :: rest => s.draft :: Stmt.drafts rest

end

namespace StmtDraft

/-- Induction over a draft together with the drafts in its blocks.  The two
statements are proved together, as a block is a draft and holds a list of
drafts. -/
theorem induction {motive : StmtDraft → Prop} {motives : List StmtDraft → Prop}
    (assign : ∀ target value, motive (.assign target value))
    (ret : ∀ value, motive (.ret value))
    (block : ∀ body, motives body → motive (.block body))
    (nil : motives [])
    (cons : ∀ s rest, motive s → motives rest → motives (s :: rest)) :
    (∀ s, motive s) ∧ (∀ body, motives body) :=
  ⟨fun s => StmtDraft.rec (motive_1 := motive) (motive_2 := motives) assign ret block nil cons s,
    fun body =>
      StmtDraft.rec_1 (motive_1 := motive) (motive_2 := motives) assign ret block nil cons body⟩

mutual

/-- The drafts of expressions in a draft of a statement. -/
def parts : StmtDraft → List Draft
  | .assign _ value => value.parts
  | .ret value => value.parts
  | .block body => partsOf body

/-- The drafts of expressions in drafts of statements. -/
def partsOf : List StmtDraft → List Draft
  | [] => []
  | s :: rest => s.parts ++ partsOf rest

end

mutual

/-- The names that a draft assigns to. -/
def targets : StmtDraft → List String
  | .assign target _ => [target]
  | .ret _ => []
  | .block body => targetsOf body

/-- The names that drafts assign to. -/
def targetsOf : List StmtDraft → List String
  | [] => []
  | s :: rest => s.targets ++ targetsOf rest

end

/-- Nothing is absent and no name is empty. -/
def WellFormed (draft : StmtDraft) : Prop :=
  .absent ∉ draft.parts ∧ .variable "" ∉ draft.parts ∧ "" ∉ draft.targets

mutual

/-- All defects of a draft, from left to right. -/
def defects : StmtDraft → List Defect
  | .assign target value =>
    (if target.isEmpty then [.emptyIdentifier .assignment] else []) ++
      value.defectsAt .assignment .value
  | .ret value => value.defectsAt .ret .value
  | .block body => defectsOf body

/-- All defects of drafts one after the other. -/
def defectsOf : List StmtDraft → List Defect
  | [] => []
  | s :: rest => s.defects ++ defectsOf rest

end

/-- Building a draft reports its first defect. -/
theorem reports_build :
    (∀ draft : StmtDraft, Reports draft.build draft.defects) ∧
      ∀ body : List StmtDraft, Reports (buildAll body) (defectsOf body) := by
  refine StmtDraft.induction ?assign ?ret ?block ?nil ?cons
  case assign =>
    intro target value
    rw [build, defects]
    exact reports_assign (value.reports_build _ _)
  case ret =>
    intro value
    rw [build, defects]
    exact reports_ret (value.reports_build _ _)
  case block =>
    intro body ih
    rw [build, defects]
    exact ih.map
  case nil =>
    rw [buildAll, defectsOf]
    exact .ok _
  case cons =>
    intro s rest ihs ihrest
    have hbuild : buildAll (s :: rest) = s.build.bind fun s => (buildAll rest).map (s :: ·) := by
      rw [buildAll]
      cases s.build <;> rfl
    rw [hbuild, defectsOf]
    exact ihs.bind fun _ => ihrest.map

theorem defects_eq_nil_iff :
    (∀ draft : StmtDraft, draft.defects = [] ↔ draft.WellFormed) ∧
      ∀ body : List StmtDraft, defectsOf body = [] ↔
        .absent ∉ partsOf body ∧ .variable "" ∉ partsOf body ∧ "" ∉ targetsOf body := by
  refine StmtDraft.induction ?assign ?ret ?block ?nil ?cons
  case assign =>
    intro target value
    have htarget : (if target.isEmpty then [Defect.emptyIdentifier .assignment] else []) = [] ↔
        "" ∉ [target] := by
      rw [List.mem_singleton, @eq_comm _ ""]
      simp
    rw [defects, List.append_eq_nil_iff, htarget, Draft.defectsAt_eq_nil_iff, WellFormed, parts,
      targets, and_comm, Draft.WellFormed, and_assoc]
  case ret =>
    intro value
    rw [defects, Draft.defectsAt_eq_nil_iff, WellFormed, parts, targets]
    simp [Draft.WellFormed]
  case block =>
    intro body ih
    rw [defects, ih, WellFormed, parts, targets]
  case nil => simp [defectsOf, partsOf, targetsOf]
  case cons =>
    intro s rest ihs ihrest
    rw [defectsOf, List.append_eq_nil_iff, ihs, ihrest, WellFormed, partsOf, targetsOf]
    simp only [List.mem_append, not_or]
    exact ⟨fun ⟨⟨ha, hv, ht⟩, ha', hv', ht'⟩ => ⟨⟨ha, ha'⟩, ⟨hv, hv'⟩, ht, ht'⟩,
      fun ⟨⟨ha, ha'⟩, ⟨hv, hv'⟩, ht, ht'⟩ => ⟨⟨ha, hv, ht⟩, ha', hv', ht'⟩⟩

/-- What is built from a draft is what the draft spells out. -/
theorem eq_draft_of_build :
    (∀ (draft : StmtDraft) (s : Stmt), draft.build = .ok s → draft = s.draft) ∧
      ∀ (body : List StmtDraft) (ss : List Stmt), buildAll body = .ok ss →
        body = Stmt.drafts ss := by
  refine StmtDraft.induction ?assign ?ret ?block ?nil ?cons
  case assign =>
    intro target value s h
    rw [build, Construction.assign] at h
    split at h
    · cases h
    · split at h
      · cases h
      · rename_i e he
        cases h
        rw [Stmt.draft, ← Draft.eq_draft_of_build he]
  case ret =>
    intro value s h
    rw [build, Construction.ret] at h
    split at h
    · cases h
    · rename_i e he
      cases h
      rw [Stmt.draft, ← Draft.eq_draft_of_build he]
  case block =>
    intro body ih s h
    rw [build] at h
    obtain ⟨ss, hss, rfl⟩ := Except.map_eq_ok_iff.mp h
    rw [Stmt.draft, ← ih ss hss]
  case nil =>
    intro ss h
    rw [buildAll] at h
    cases h
    rw [Stmt.drafts]
  case cons =>
    intro s rest ihs ihrest ss h
    rw [buildAll] at h
    split at h
    · cases h
    · rename_i t ht
      obtain ⟨ts, hts, rfl⟩ := Except.map_eq_ok_iff.mp h
      rw [Stmt.drafts, ← ihs t ht, ← ihrest ts hts]

end StmtDraft

namespace Stmt

/-- A statement without empty names can be built. -/
theorem build_draft :
    (∀ s : Stmt, s.Named → s.draft.build = .ok s) ∧
      ∀ body : List Stmt, (∀ a ∈ actionsOf body, a.Named) →
        StmtDraft.buildAll (drafts body) = .ok body := by
  refine Stmt.induction ?action ?block ?nil ?cons
  case action =>
    intro a ha
    have hnamed : a.Named := ha a (by simp)
    cases a with
    | assign target value =>
        have hne : target.isEmpty = false := by simpa using hnamed.2 target rfl
        have hvalue : value.draft.build = .ok (some value) := Expr.build_draft hnamed.1
        rw [draft, StmtDraft.build, hvalue, Construction.assign, hne]
        rfl
    | ret value =>
        have hvalue : value.draft.build = .ok (some value) := Expr.build_draft hnamed.1
        rw [draft, StmtDraft.build, hvalue]
        rfl
  case block =>
    intro body ih hbody
    rw [draft, StmtDraft.build, ih (by simpa [Named] using hbody)]
    rfl
  case nil =>
    intro _
    rw [drafts, StmtDraft.buildAll]
  case cons =>
    intro s rest ihs ihrest hbody
    rw [actionsOf_cons, List.forall_mem_append] at hbody
    rw [drafts, StmtDraft.buildAll, ihs hbody.1, ihrest hbody.2]
    rfl

/-- The draft of a statement is well-formed if the statement has no empty name. -/
theorem wellFormed_draft_iff :
    (∀ s : Stmt, s.draft.WellFormed ↔ s.Named) ∧
      ∀ body : List Stmt, StmtDraft.defectsOf (drafts body) = [] ↔
        ∀ a ∈ actionsOf body, a.Named := by
  refine Stmt.induction ?action ?block ?nil ?cons
  case action =>
    intro a
    have hsingle : (action a).Named ↔ a.Named := by simp [Named]
    rw [hsingle, ← StmtDraft.defects_eq_nil_iff.1]
    cases a with
    | assign target value =>
        rw [draft, StmtDraft.defects, List.append_eq_nil_iff, Draft.defectsAt_eq_nil_iff,
          Expr.wellFormed_draft_iff, and_comm]
        simp [Action.Named, Action.value, Action.target?]
    | ret value =>
        rw [draft, StmtDraft.defects, Draft.defectsAt_eq_nil_iff, Expr.wellFormed_draft_iff]
        simp [Action.Named, Action.value, Action.target?]
  case block =>
    intro body ih
    rw [← StmtDraft.defects_eq_nil_iff.1, draft, StmtDraft.defects, ih, Named, actions_block]
  case nil => simp [drafts, StmtDraft.defectsOf]
  case cons =>
    intro s rest ihs ihrest
    rw [drafts, StmtDraft.defectsOf, List.append_eq_nil_iff, StmtDraft.defects_eq_nil_iff.1, ihs,
      ihrest, actionsOf_cons, List.forall_mem_append]
    rfl

end Stmt

namespace StmtDraft

theorem build_eq_ok_iff {draft : StmtDraft} {s : Stmt} :
    draft.build = .ok s ↔ draft = s.draft ∧ draft.WellFormed := by
  constructor
  · intro h
    have hnone := (reports_build.1 draft).exists_ok_iff.mp ⟨s, h⟩
    exact ⟨eq_draft_of_build.1 draft s h, (defects_eq_nil_iff.1 draft).mp hnone⟩
  · rintro ⟨rfl, hformed⟩
    exact Stmt.build_draft.1 s ((Stmt.wellFormed_draft_iff.1 s).mp hformed)

/-- **Building finds the first defect.**  Building succeeds exactly if nothing is absent and no name
is empty, and what is built is then the expression or the statement that the draft spells out.
Otherwise it fails with the first of all defects from left to right, an absent part counting where
it stands and the empty target of an assignment before the value.  And every statement and every
expression without empty names is built from some draft. -/
theorem build_finds_first_defect :
    (∀ draft : Draft, draft ≠ .absent →
      ((∃ e, draft.build = .ok (some e)) ↔ draft.WellFormed) ∧
      (∀ e, draft.build = .ok (some e) ↔ draft = e.draft ∧ draft.WellFormed) ∧
      ∀ node place d,
        draft.build = .error d ↔ (draft.defectsAt node place).head? = some d) ∧
    (∀ draft : StmtDraft,
      ((∃ s, draft.build = .ok s) ↔ draft.WellFormed) ∧
      (∀ s, draft.build = .ok s ↔ draft = s.draft ∧ draft.WellFormed) ∧
      ∀ d, draft.build = .error d ↔ draft.defects.head? = some d) ∧
    (∀ e : Expr, e.Named → ∃ draft : Draft, draft.build = .ok (some e)) ∧
    ∀ s : Stmt, s.Named → ∃ draft : StmtDraft, draft.build = .ok s := by
  refine ⟨fun draft hpresent => ?_, fun draft => ?_, fun e he => ⟨e.draft, Expr.build_draft he⟩,
    fun s hs => ⟨s.draft, Stmt.build_draft.1 s hs⟩⟩
  · have hok : ∀ e, draft.build = .ok (some e) ↔ require .ret .value draft.build = .ok e := by
      intro e
      rw [Draft.build_eq_map_require hpresent .ret .value, Draft.require_map_some]
      simp [Except.map_eq_ok_iff]
    have herror : ∀ node place d,
        draft.build = .error d ↔ require node place draft.build = .error d := by
      intro node place d
      rw [Draft.build_eq_map_require hpresent node place, Draft.require_map_some]
      cases require node place draft.build <;> simp [Except.map]
    refine ⟨?_, fun e => (hok e).trans Draft.build_eq_ok_iff, fun node place d =>
      (herror node place d).trans (draft.reports_build node place).eq_error_iff⟩
    rw [exists_congr hok, (draft.reports_build .ret .value).exists_ok_iff,
      Draft.defectsAt_eq_nil_iff]
  · have hreports := reports_build.1 draft
    exact ⟨hreports.exists_ok_iff.trans (defects_eq_nil_iff.1 draft), fun s => build_eq_ok_iff,
      fun d => hreports.eq_error_iff⟩

/-- An empty variable before an absent part, and an empty target before an absent part in its value;
in a block the first statement with a defect reports. -/
theorem build_finds_first_defect_of_several :
    let quotient : Draft := .binary .floatDiv (.binary .plus (.variable "") (.variable "x")) .absent
    let half : Draft := .binary .floatDiv (.literal (.int 1)) .absent
    let inner : StmtDraft := .block [.ret (.variable "x"), .assign "" half, .ret quotient]
    let increment : Expr := .binary .plus (.variable "x") (.literal (.int 1))
    let program : Stmt := .block [.assign "x" increment, .block []]
    (quotient ≠ .absent ∧ half ≠ .absent ∧ increment.Named ∧ program.Named) ∧
      quotient.build = .error (.emptyIdentifier .variable) ∧
      half.build = .error (.missingOperand (.operator .floatDiv) .right) ∧
      (Defect.missingOperand (.operator .floatDiv) .right).message =
        "float_div is missing its right operand" ∧
      (StmtDraft.block [.block [], inner, .ret .absent]).build =
        .error (.emptyIdentifier .assignment) ∧
      (∃ draft : Draft, draft.build = .ok (some increment)) ∧
      ∃ draft : StmtDraft, draft.build = .ok program := by
  intro quotient half inner increment program
  have hquotient : quotient ≠ .absent := by decide
  have hhalf : half ≠ .absent := by decide
  have hincrement : increment.Named := by simp [increment, Expr.Named]
  have hprogram : program.Named := by
    simp [program, increment, Stmt.Named, Action.Named, Action.value, Action.target?, Expr.Named]
  obtain ⟨hexpr, hstmt, hexprs, hstmts⟩ := build_finds_first_defect
  obtain ⟨-, -, hfirst⟩ := hexpr quotient hquotient
  obtain ⟨-, -, hmissing⟩ := hexpr half hhalf
  obtain ⟨-, -, hinner⟩ := hstmt (.block [.block [], inner, .ret .absent])
  exact ⟨⟨hquotient, hhalf, hincrement, hprogram⟩,
    (hfirst .ret .value _).mpr (by decide), (hmissing .ret .value _).mpr (by decide), by decide,
    (hinner _).mpr (by decide), hexprs increment hincrement, hstmts program hprogram⟩

end StmtDraft

end StraightLine
