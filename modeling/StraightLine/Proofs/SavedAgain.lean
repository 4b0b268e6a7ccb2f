import StraightLine.Proofs.CountedBrackets
import StraightLine.Proofs.FiniteNumbers
import StraightLine.Proofs.RoundTrip
import StraightLine.Proofs.WrittenBrackets

/-!
# Saving again what was read

Whatever text a program was read from, the program can be saved: its names are not empty, its
numbers are finite, and its saved text opens no more brackets at once than were counted when it was
read.

## Main definitions

* `Stmt.FiniteLiterals` — every floating literal is finite.

## Main statements

* `Saved.ExprOf.depth_le`, `Saved.savable_of_form` — the saved form of a part needs no more levels
  than the text that it was read from.
* `Saved.exists_counted` — a text is read with as many levels as brackets are counted in it.
* `Saved.read_can_be_saved` — programs that were read.

## Design notes

* **Depths are compared with levels first.**  That a program was read with some number of levels
  bounds the depth of its saved form; the least such number is the count, and the text that was read
  is not mentioned in between.
-/

namespace StraightLine

open Saved

/-- Every floating literal of the expression is finite. -/
def Expr.FiniteLiterals (e : Expr) : Prop := ∀ v ∈ e.literals, v.Finite

/-- Every floating literal of the statement is finite. -/
def Stmt.FiniteLiterals (s : Stmt) : Prop := ∀ a ∈ s.actions, a.value.FiniteLiterals

namespace Saved

/-! ### Expressions -/

/-- No literal is infinite or not-a-number.  A numeral out of range is no
literal, so the reader never makes such a number from digits. -/
theorem LiteralOf.finite {j : Tree} {value : Value} (h : LiteralOf j value) : value.Finite := by
  cases h with
  | int => trivial
  | float _ hrounded => exact Numeral.isFinite_of_rounded? hrounded

theorem NameOf.ne_empty {j : Tree} {name : String} (h : NameOf j name) : name ≠ "" := by
  cases h
  assumption

theorem ExprOf.named {levels : Nat} {j : Tree} {e : Expr} (h : ExprOf levels j e) : e.Named := by
  induction h with
  | literal _ _ => simp [Expr.Named]
  | «variable» _ hname =>
      intro name hmem
      rw [List.mem_singleton.mp hmem]
      exact hname.ne_empty
  | binary _ _ _ _ _ ihl ihr =>
      intro name hmem
      rcases List.mem_append.mp hmem with hmem | hmem
      · exact ihl name hmem
      · exact ihr name hmem

theorem ExprOf.finiteLiterals {levels : Nat} {j : Tree} {e : Expr} (h : ExprOf levels j e) :
    e.FiniteLiterals := by
  induction h with
  | literal _ hvalue =>
      intro v hmem
      rw [List.mem_singleton.mp hmem]
      exact hvalue.finite
  | «variable» _ _ => simp [Expr.FiniteLiterals]
  | binary _ _ _ _ _ ihl ihr =>
      intro v hmem
      rcases List.mem_append.mp hmem with hmem | hmem
      · exact ihl v hmem
      · exact ihr v hmem

/-- The saved form of an expression is no deeper than there were levels to read
it.  A record may have been read from an array and is saved as an object; both
open one bracket. -/
theorem ExprOf.depth_le {levels : Nat} {j : Tree} {e : Expr} (h : ExprOf levels j e) :
    e.toJson.depth ≤ levels := by
  induction h with
  | @literal levels _ _ value _ _ =>
      have hscalar : value.toJson.depth = 0 := by
        cases value <;> rw [Value.toJson, Json.depth]
      simp only [Expr.toJson, Json.depth, Json.depthOfFields, hscalar]
      omega
  | «variable» _ _ =>
      simp only [Expr.toJson, Json.depth, Json.depthOfFields]
      omega
  | binary _ _ _ _ _ ihl ihr =>
      simp only [Expr.toJson, Json.depth, Json.depthOfFields]
      omega

/-! ### Statements -/

/-- What is asked of a statement that is to be saved with a number of levels.
The parts do not depend on each other, but all of them follow from the form by
the same induction. -/
structure Savable (levels : Nat) (s : Stmt) : Prop where
  named : s.Named
  finite : s.FiniteLiterals
  depth_le : s.toJson.depth ≤ levels

theorem StmtOf.savable_action {levels : Nat} {j : Tree} {a : Action}
    (h : StmtOf levels j (.action a)) : Savable levels (.action a) := by
  cases h with
  | @assign levels _ _ _ _ target value _ _ htarget hvalue =>
      refine ⟨?_, ?_, ?_⟩
      · intro a ha
        obtain rfl := List.mem_singleton.mp ha
        refine ⟨hvalue.named, fun name hname => ?_⟩
        cases hname
        exact htarget.ne_empty
      · intro a ha
        obtain rfl := List.mem_singleton.mp ha
        exact hvalue.finiteLiterals
      · have hdepth := hvalue.depth_le
        simp only [Stmt.toJson, Action.toJson, Json.depth, Json.depthOfFields]
        omega
  | @ret levels _ _ value _ hvalue =>
      refine ⟨?_, ?_, ?_⟩
      · intro a ha
        obtain rfl := List.mem_singleton.mp ha
        exact ⟨hvalue.named, fun name hname => by cases hname⟩
      · intro a ha
        obtain rfl := List.mem_singleton.mp ha
        exact hvalue.finiteLiterals
      · have hdepth := hvalue.depth_le
        simp only [Stmt.toJson, Action.toJson, Json.depth, Json.depthOfFields]
        omega

/-- What was read can be saved, with the levels that it was read with.  No text
is mentioned: the form at a number of levels is all that is needed. -/
theorem savable_of_form :
    (∀ (s : Stmt) (levels : Nat) (j : Tree), StmtOf levels j s → Savable levels s) ∧
    (∀ (body : List Stmt) (levels : Nat) (js : List Tree), StmtsOf levels js body →
      (Stmt.block body).Named ∧ (Stmt.block body).FiniteLiterals ∧
        Json.depthOfItems (Stmt.jsonItems body) ≤ levels) := by
  refine Stmt.induction ?action ?block ?nil ?cons
  case action =>
    intro a levels j h
    exact h.savable_action
  case block =>
    intro body ih levels j h
    cases h with
    | block _ hbody =>
        cases hbody with
        | @array levels js _ hjs =>
            obtain ⟨hnamed, hfinite, hdepth⟩ := ih levels js hjs
            refine ⟨hnamed, hfinite, ?_⟩
            simp only [Stmt.toJson, Json.depth, Json.depthOfFields]
            omega
  case nil =>
    intro levels js _
    refine ⟨?_, ?_, Nat.zero_le levels⟩
    · simp [Stmt.Named]
    · simp [Stmt.FiniteLiterals]
  case cons =>
    intro s rest ihs ihrest levels js h
    cases h with
    | cons hs hrest =>
        have hhead := ihs levels _ hs
        obtain ⟨hnamed, hfinite, hdepth⟩ := ihrest levels _ hrest
        refine ⟨Stmt.forall_actions_cons.mpr ⟨hhead.named, hnamed⟩,
          Stmt.forall_actions_cons.mpr ⟨hhead.finite, hfinite⟩, ?_⟩
        rw [Stmt.jsonItems, Json.depthOfItems]
        exact Nat.max_le.mpr ⟨hhead.depth_le, hdepth⟩

/-- The saved text of a program opens as many brackets as its saved form is
deep.  So a bound on the depth, which comes from levels, is a bound on the text,
which is what reading asks for. -/
theorem openBrackets_savedText (body : List Stmt) :
    openBrackets false 0 (Stmt.savedText body).toList =
      Json.depthOfItems (Stmt.jsonItems body) + 1 := by
  have hopens := Json.opens_compact (.array (Stmt.jsonItems body)) 0 []
  rw [List.append_nil, Json.depth, openBrackets] at hopens
  rw [Stmt.savedText, hopens]
  omega

theorem BodyOf.savable {levels : Nat} {j : Tree} {body : List Stmt} (h : BodyOf levels j body) :
    (Stmt.block body).Named ∧ (Stmt.block body).FiniteLiterals ∧
      openBrackets false 0 (Stmt.savedText body).toList ≤ levels := by
  obtain ⟨hjs⟩ := h
  obtain ⟨hnamed, hfinite, hdepth⟩ := savable_of_form.2 body _ _ hjs
  refine ⟨hnamed, hfinite, ?_⟩
  rw [openBrackets_savedText]
  exact Nat.succ_le_succ hdepth

/-! ### Programs -/

/-- A saved text is read with any number of levels that is enough for its brackets. -/
theorem whole_savedText {body : List Stmt} (hnames : (Stmt.block body).Named)
    (hfloats : (Stmt.block body).FloatsReadBack) {levels : Nat}
    (hlevels : openBrackets false 0 (Stmt.savedText body).toList ≤ levels) :
    whole (readBody levels) (Stmt.savedText body) = .ok body := by
  obtain ⟨js, hwritten, hform⟩ := Stmt.exists_written.2 body hnames hfloats
  obtain ⟨rest, hspells, hblanks⟩ := written_array hwritten []
  rw [List.append_nil] at hspells
  rw [Stmt.savedText, hspells.openBrackets_eq, Tree.depth] at hlevels
  obtain ⟨levels, rfl⟩ := Nat.exists_eq_add_of_le' (by omega : 1 ≤ levels)
  apply (reads_readBody (levels + 1)).whole_eq_ok_iff.mpr
  exact ⟨_, rest, hspells, hblanks, .array (hform levels (by omega))⟩

/-- A text is read with as many levels as brackets are counted in it, and with
no fewer.  The value that the text spells is the same for all numbers of levels,
so they can be compared. -/
theorem exists_counted {text : String} {body : List Stmt} {limit : Nat}
    (h : whole (readBody limit) text = .ok body) :
    ∃ j rest, Spells j text.toList rest ∧ Blanks rest [] ∧ BodyOf (j.counted .body) j body ∧
      ∀ levels, whole (readBody levels) text = .ok body ↔ j.counted .body ≤ levels := by
  classical
  have hread : ∃ levels, whole (readBody levels) text = .ok body := ⟨limit, h⟩
  -- The value is the one that the text spells for the least number of levels.
  obtain ⟨j, rest, hspells, hblanks, hbody⟩ :=
    (reads_readBody _).whole_eq_ok_iff.mp (Nat.find_spec hread)
  have henough : ∀ levels, j.counted .body ≤ levels →
      whole (readBody levels) text = .ok body := by
    intro levels hle
    apply (reads_readBody levels).whole_eq_ok_iff.mpr
    exact ⟨j, rest, hspells, hblanks, (hbody.iff_counted_le levels).mpr hle⟩
  have hleast : j.counted .body ≤ Nat.find hread := (hbody.iff_counted_le _).mp hbody
  have hform := (hbody.iff_counted_le _).mpr (Nat.le_refl _)
  refine ⟨j, rest, hspells, hblanks, hform, fun levels => ⟨fun hlevels => ?_, henough levels⟩⟩
  exact hleast.trans (Nat.find_min' hread hlevels)

/-- **A program that was read can be saved again.**  It is a block, no name in it is empty, and
every floating literal is finite, so none is written as `null`.  The text that it was read from
spells a value in which at most 127 brackets are counted, and is read with exactly as many levels as
are counted; the saved text opens no more brackets at once.  If all literals are integers, the
program is read back from its saved text. -/
theorem read_can_be_saved {text : String} {program : Stmt} (h : read text = .ok program) :
    ∃ body, program = .block body ∧ program.Named ∧
      (∀ a ∈ program.actions, ∀ x, Value.float x ∈ a.value.literals →
        x.isFinite = true ∧ Json.floatText x ≠ "null") ∧
      (∃ j rest, Spells j text.toList rest ∧ Blanks rest [] ∧
        (∀ levels, whole (readBody levels) text = .ok body ↔ j.counted .body ≤ levels) ∧
        openBrackets false 0 (Stmt.savedText body).toList ≤ j.counted .body ∧
        j.counted .body ≤ nestingLimit) ∧
      ((∀ a ∈ program.actions, ∀ x, Value.float x ∉ a.value.literals) →
        read (Stmt.savedText body) = .ok program) := by
  obtain ⟨body, hwhole, rfl⟩ := Except.map_eq_ok_iff.mp h
  obtain ⟨j, rest, hspells, hblanks, hform, hcounted⟩ := exists_counted hwhole
  obtain ⟨hnamed, hfinite, hbrackets⟩ := hform.savable
  have hlimit : j.counted .body ≤ nestingLimit := (hcounted nestingLimit).mp hwhole
  refine ⟨body, rfl, hnamed, fun a ha x hx => ?_,
    ⟨j, rest, hspells, hblanks, hcounted, hbrackets, hlimit⟩, fun hints => ?_⟩
  · have hx' : x.isFinite = true := hfinite a ha (.float x) hx
    exact ⟨hx', Json.floatText_ne_null hx'⟩
  · have hfloats : (Stmt.block body).FloatsReadBack := fun a ha x hx => absurd hx (hints a ha x)
    rw [read, whole_savedText hnamed hfloats (hbrackets.trans hlimit)]
    rfl

/-- Records as arrays, an operator as an object, fields in another order and unknown ones among
them, escapes in a key and in a name, and blanks: five brackets are counted of thirteen. -/
theorem read_can_be_saved_of_variants :
    let text := " [\x7b\"assignment\" : [\"\\u0078\", \x7b\"literal\":1\x7d]\x7d,\n" ++
      "\x7b\"ret\\u0075rn\":\x7b\"binary\":\x7b\"right\":\x7b\"literal\":2\x7d," ++
      "\"note\":[[[[[[[[[]]]]]]]]],\"op\":\x7b\"plus\":null\x7d," ++
      "\"left\":\x7b\"variable\":\"x\"\x7d\x7d\x7d\x7d] "
    let body : List Stmt :=
      [.assign "x" (.literal (.int 1)), .ret (.binary .plus (.variable "x") (.literal (.int 2)))]
    read text = .ok (.block body) ∧
      openBrackets false 0 text.toList = 13 ∧
      openBrackets false 0 (Stmt.savedText body).toList ≤ 5 ∧
      read (Stmt.savedText body) = .ok (.block body) := by
  intro text body
  -- The characters of a long text are slow to take out of it, so they are taken out of its parts,
  -- and once for all readings.
  obtain ⟨chars, hchars, hnested, hlevels, hthirteen⟩ : ∃ chars, text.toList = chars ∧
      readBody nestingLimit chars = .ok (body, [' ']) ∧ readBody 5 chars = .ok (body, [' ']) ∧
      openBrackets false 0 chars = 13 :=
    ⟨_, by simp only [text, String.toList_append]
           rw [String.toList_ofList, String.toList_ofList, String.toList_ofList,
             String.toList_ofList],
      by decide +kernel, by decide +kernel, by decide +kernel⟩
  have hread : read text = .ok (.block body) := by
    rw [read, whole_eq_ok hchars hnested rfl]
    rfl
  have hfive : whole (readBody 5) text = .ok body := whole_eq_ok hchars hlevels rfl
  obtain ⟨_, ⟨rfl⟩, -, -, ⟨j, rest, -, -, hcounted, hbrackets, -⟩, hagain⟩ :=
    read_can_be_saved hread
  refine ⟨hread, hchars ▸ hthirteen, hbrackets.trans ((hcounted 5).mp hfive), hagain ?_⟩
  simp [body, Action.value]

end Saved

end StraightLine
