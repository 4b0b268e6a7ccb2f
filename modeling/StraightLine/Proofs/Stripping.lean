import StraightLine.Proofs.NumberText
import StraightLine.Report.Plain

/-!
# Reports without their colours

A terminal shows a coloured report as the plain report with attributes.  What it shows is the text
that is left when the sequences that switch attributes are deleted.  Names can hold such sequences
as well, whole ones and beginnings of them, and stand next to those of the report; still the
coloured and the plain report are left with the same text.

## Main definitions

* `Styled.behindSequence?`, `Styled.strip` — one sequence, and all sequences of a text, deleted in
  one pass from left to right.
* `Styled.Breaks` — no sequence that has begun before a text goes on into it.
* `Styled.Leaves`, `Styled.SameShown` — what deletion leaves of a text wherever the text stands, and
  texts of which it leaves the same.

## Main statements

* `Styled.strip_append` — deletion on either side of a place where every sequence ends.
* `Styled.strip_reopen` — switching attributes on again behind an embedded sequence leaves no trace.
* `Styled.strip_styled_append` — nor does styling a piece of text.
* `Styled.strip_report` — coloured and plain reports hold the same text.

## Design notes

* **A sequence has an escape character at its beginning and nowhere else.**  So nothing before an
  escape character can join with what follows it, whatever names contain, and this is all that keeps
  the sequences of a report apart from those in names.
* **Deletion is not repeated.**  What stands before and behind a deleted sequence may look like a
  sequence afterwards; it stays, on both sides alike.
-/

namespace StraightLine

namespace Styled

/-! ## Deleting sequences -/

/-- The characters between the bracket and the final letter of a sequence. -/
def isParameter (c : Char) : Bool := c.isDigit || c == ';'

/-- The text behind any number of parameters and the final letter, if a text starts with them. -/
def behindParameters? : List Char → Option (List Char)
  | [] => none
  | c :: rest =>
    if isParameter c then behindParameters? rest else if c = 'm' then some rest else none

/-- The text behind the sequence that a text starts with, if it starts with one.
Such a sequence is an escape character, a bracket, parameters and the letter
`m`; no other sequences are known to a report. -/
def behindSequence? : List Char → Option (List Char)
  | c :: d :: rest => if c = '\x1b' ∧ d = '[' then behindParameters? rest else none
  | _ => none

theorem length_lt_of_behindParameters? {s rest : List Char}
    (h : behindParameters? s = some rest) : rest.length < s.length := by
  induction s with
  | nil => cases h
  | cons c s ih =>
      rw [behindParameters?] at h
      split at h
      · exact Nat.lt_succ_of_lt (ih h)
      · split at h
        · cases h
          exact Nat.lt_succ_self _
        · cases h

theorem length_lt_of_behindSequence? {s rest : List Char} (h : behindSequence? s = some rest) :
    rest.length < s.length := by
  unfold behindSequence? at h
  split at h
  · split at h
    · exact Nat.lt_succ_of_lt (Nat.lt_succ_of_lt (length_lt_of_behindParameters? h))
    · cases h
  · cases h

/-- A text without its sequences, which are deleted in one pass from left to
right.  A sequence that comes about only by the deletion of another is left as
it stands. -/
def strip (s : List Char) : List Char :=
  match s with
  | [] => []
  | c :: rest =>
    match h : behindSequence? (c :: rest) with
    | some rest' =>
      have := length_lt_of_behindSequence? h
      strip rest'
    | none => c :: strip rest
termination_by s.length
decreasing_by
  · exact this
  · exact Nat.lt_succ_self _

@[simp] theorem strip_nil : strip [] = [] := by rw [strip]

theorem strip_of_sequence {s rest : List Char} (h : behindSequence? s = some rest) :
    strip s = strip rest := by
  cases s with
  | nil => cases h
  | cons c s =>
      rw [strip]
      split
      · rename_i hrest
        rw [h] at hrest
        rw [Option.some.inj hrest]
      · rename_i hnone
        rw [h] at hnone
        cases hnone

theorem strip_of_none {c : Char} {s : List Char} (h : behindSequence? (c :: s) = none) :
    strip (c :: s) = c :: strip s := by
  rw [strip]
  split
  · rename_i hrest
    rw [h] at hrest
    cases hrest
  · rfl

/-- Characters other than the escape character start no sequence. -/
theorem strip_cons {c : Char} (hc : c ≠ '\x1b') (s : List Char) :
    strip (c :: s) = c :: strip s := by
  refine strip_of_none ?_
  cases s with
  | nil => rfl
  | cons d s => exact if_neg fun hstart => hc hstart.1

/-- Text without an escape character stays as it is. -/
theorem strip_append_of_notMem {xs : List Char} (hxs : '\x1b' ∉ xs) (ys : List Char) :
    strip (xs ++ ys) = xs ++ strip ys := by
  induction xs with
  | nil => rfl
  | cons c xs ih =>
      rw [List.mem_cons, not_or] at hxs
      rw [List.cons_append, strip_cons (Ne.symm hxs.1), ih hxs.2, List.cons_append]

theorem strip_of_notMem {xs : List Char} (hxs : '\x1b' ∉ xs) : strip xs = xs := by
  simpa using strip_append_of_notMem hxs []

/-! ## Places where sequences end -/

/-- Whether a character belongs to no sequence, except as the first one.  An
escape character is one of these: it may start a sequence but goes on with none. -/
def endsSequence (c : Char) : Bool := c != '[' && c != 'm' && !isParameter c

/-- No sequence that has begun before a text goes on into it.  It is a condition
on the first character alone, so it holds in front of any sequence and of most
separators. -/
def Breaks (ys : List Char) : Prop := ∀ c ∈ ys.head?, endsSequence c = true

theorem breaks_cons {c : Char} (h : endsSequence c = true) (ys : List Char) : Breaks (c :: ys) := by
  rintro d ⟨⟩
  exact h

theorem behindParameters?_append {ys : List Char} (hys : Breaks ys) (xs : List Char) :
    behindParameters? (xs ++ ys) = (behindParameters? xs).map (· ++ ys) := by
  induction xs with
  | nil =>
      cases ys with
      | nil => rfl
      | cons c ys =>
          obtain ⟨⟨-, hm⟩, hparameter⟩ :
              (c ≠ '[' ∧ c ≠ 'm') ∧ isParameter c = false := by
            simpa [endsSequence] using hys c rfl
          simp [behindParameters?, hparameter, hm]
  | cons c xs ih =>
      rw [List.cons_append, behindParameters?, behindParameters?, ih]
      split
      · rfl
      · split <;> rfl

theorem behindSequence?_append {xs ys : List Char} (hxs : xs ≠ []) (hys : Breaks ys) :
    behindSequence? (xs ++ ys) = (behindSequence? xs).map (· ++ ys) := by
  match xs with
  | [] => exact absurd rfl hxs
  | [c] =>
      cases ys with
      | nil => simp [behindSequence?]
      | cons d ys =>
          have hbracket : d ≠ '[' := by
            rintro rfl
            exact absurd (hys '[' rfl) (by decide)
          simp [behindSequence?, hbracket]
  | c :: d :: xs =>
      rw [List.cons_append, List.cons_append, behindSequence?, behindSequence?,
        behindParameters?_append hys]
      split <;> rfl

/-- Deletion on either side of a place where every sequence ends.  This is all
that is used of deletion in what follows; where two texts do not meet at such a
place, nothing of the kind holds. -/
theorem strip_append {ys : List Char} (hys : Breaks ys) (xs : List Char) :
    strip (xs ++ ys) = strip xs ++ strip ys := by
  fun_induction strip xs with
  | case1 => rfl
  | case2 c rest rest' h _ ih =>
      have hsame := behindSequence?_append (List.cons_ne_nil c rest) hys
      rw [h] at hsame
      rw [strip_of_sequence hsame, ih]
  | case3 c rest h ih =>
      have hsame := behindSequence?_append (List.cons_ne_nil c rest) hys
      rw [h] at hsame
      exact (strip_of_none hsame).trans (congrArg (c :: ·) ih)

/-! ## Sequences -/

/-- A text is one sequence.  The codes of a report are of this form, with
parameters that are separated by semicolons. -/
def IsSequence (xs : List Char) : Prop :=
  ∃ ps : List Char, (∀ c ∈ ps, isParameter c = true) ∧ xs = '\x1b' :: '[' :: (ps ++ ['m'])

theorem behindParameters?_of_forall {ps : List Char} (hps : ∀ c ∈ ps, isParameter c = true)
    (rest : List Char) : behindParameters? (ps ++ 'm' :: rest) = some rest := by
  induction ps with
  | nil => rfl
  | cons c ps ih =>
      rw [List.cons_append, behindParameters?, if_pos (hps c List.mem_cons_self)]
      exact ih fun d hd => hps d (List.mem_cons_of_mem _ hd)

namespace IsSequence

variable {xs : List Char}

/-- A sequence is deleted. -/
theorem strip_append (h : IsSequence xs) (ys : List Char) : strip (xs ++ ys) = strip ys := by
  obtain ⟨ps, hps, rfl⟩ := h
  refine strip_of_sequence ?_
  simpa [behindSequence?] using behindParameters?_of_forall hps ys

/-- Nothing goes on into a sequence. -/
theorem breaks (h : IsSequence xs) (ys : List Char) : Breaks (xs ++ ys) := by
  obtain ⟨ps, -, rfl⟩ := h
  exact breaks_cons (by decide) _

/-- A sequence is deleted wherever it stands. -/
theorem strip_append_append (h : IsSequence xs) (before ys : List Char) :
    strip (before ++ (xs ++ ys)) = strip before ++ strip ys := by
  rw [Styled.strip_append (h.breaks ys), h.strip_append]

end IsSequence

theorem isSequence_closing : IsSequence closing.toList :=
  ⟨['0'], List.forall_mem_singleton.2 rfl, rfl⟩

theorem isParameter_of_mem_codes (attributes : List Attribute) :
    ∀ c ∈ (";".intercalate (attributes.map Attribute.code)).toList, isParameter c = true := by
  have hcode : ∀ a : Attribute, ∀ c ∈ a.code.toList, isParameter c = true := by
    intro a
    rw [← List.all_eq_true]
    cases a <;> rfl
  induction attributes with
  | nil => simp
  | cons a rest ih =>
      cases rest with
      | nil => simpa using hcode a
      | cons next rest =>
          rw [List.map_cons, List.map_cons, String.intercalate_cons_cons, String.toList_append,
            String.toList_append, List.forall_mem_append, List.forall_mem_append]
          exact ⟨⟨hcode a, List.forall_mem_singleton.2 rfl⟩, ih⟩

theorem isSequence_opening (attributes : List Attribute) :
    IsSequence (opening attributes).toList :=
  ⟨_, isParameter_of_mem_codes attributes, by simp [opening]⟩

/-! ## Styled pieces -/

/-- Switching attributes on again behind every embedded end leaves no trace.
What stands before is arbitrary, because an embedded end may be the end of a
sequence that has begun before the text. -/
theorem strip_append_reopen {insertion : List Char} (hinsertion : IsSequence insertion)
    (xs : List Char) : ∀ before, strip (before ++ reopen insertion xs) = strip (before ++ xs) := by
  -- What stands before is general: a sequence may have begun in it and go on into the text.
  fun_induction reopen insertion xs with
  | case1 rest ih =>
      intro before
      have hrest := ih []
      have hopened := isSequence_closing.strip_append_append before
        (insertion ++ reopen insertion rest)
      have hplain := isSequence_closing.strip_append_append before rest
      rw [hinsertion.strip_append] at hopened
      exact hopened.trans ((congrArg _ hrest).trans hplain.symm)
  | case2 c rest hnot ih =>
      intro before
      have hrest := ih (before ++ [c])
      simpa using hrest
  | case3 => intro before; rfl

theorem strip_reopen {insertion : List Char} (hinsertion : IsSequence insertion)
    (xs : List Char) : strip (reopen insertion xs) = strip xs :=
  strip_append_reopen hinsertion xs []

/-- A coloured text is apart from what follows it. -/
theorem strip_colored_append (attributes : List Attribute) (text : String) (ys : List Char) :
    strip ((styled true attributes text).toList ++ ys) = strip text.toList ++ strip ys := by
  have hopening := isSequence_opening attributes
  have htext : (styled true attributes text).toList ++ ys =
      (opening attributes).toList ++ (reopen (opening attributes).toList text.toList ++
        (closing.toList ++ ys)) := by
    simp [styled]
  rw [htext, hopening.strip_append, isSequence_closing.strip_append_append, strip_reopen hopening]

/-- Styling leaves no trace, in front of a text into which no sequence goes on.
In colour the closing sequence sees to that by itself; the plain text needs the
hypothesis. -/
theorem strip_styled_append (color : Bool) (attributes : List Attribute) (text : String)
    {ys : List Char} (hys : Breaks ys) :
    strip ((styled color attributes text).toList ++ ys) = strip text.toList ++ strip ys := by
  cases color with
  | false => exact strip_append hys _
  | true => exact strip_colored_append attributes text ys

/-! ## Reports -/

/-- Deletion leaves `shown` of a text, whatever follows the text.  So pieces of
this kind can be written one after the other, and what is shown of the whole is
what is shown of the pieces. -/
def Leaves (text : String) (shown : List Char) : Prop :=
  ∀ ys, strip (text.toList ++ ys) = shown ++ strip ys

/-- The text has no escape character, and every sequence before it has ended.  A
name is followed by such a text wherever it stands in a report. -/
def Separates (text : String) : Prop :=
  '\x1b' ∉ text.toList ∧ text.toList.head?.any endsSequence = true

instance : DecidablePred Separates := fun text =>
  inferInstanceAs (Decidable ('\x1b' ∉ text.toList ∧ text.toList.head?.any endsSequence = true))

theorem Separates.breaks {text : String} (h : Separates text) (ys : List Char) :
    Breaks (text.toList ++ ys) := by
  obtain ⟨c, hc, hends⟩ := (Option.any_eq_true _ _).mp h.2
  obtain ⟨tail, htail⟩ := List.head?_eq_some_iff.mp hc
  rw [htail]
  exact breaks_cons hends _

namespace Leaves

variable {s t text : String} {xs ys : List Char}

theorem strip_eq (h : Leaves s xs) : strip s.toList = xs := by
  have hend := h []
  rwa [List.append_nil, strip_nil, List.append_nil] at hend

theorem append (h : Leaves s xs) (h' : Leaves t ys) : Leaves (s ++ t) (xs ++ ys) := by
  intro rest
  rw [String.toList_append, List.append_assoc, h, h', List.append_assoc]

theorem literal (htext : '\x1b' ∉ text.toList) : Leaves text text.toList :=
  strip_append_of_notMem htext

/-- A label has no sequence of its own, so it shows itself, styled or not. -/
theorem label (color : Bool) (attributes : List Attribute) (htext : '\x1b' ∉ text.toList) :
    Leaves (styled color attributes text) text.toList := by
  cases color with
  | false => exact literal htext
  | true =>
      intro ys
      rw [strip_colored_append, strip_of_notMem htext]

/-- A styled text with a separator behind it shows what the text shows.  The
text may hold any sequences, and the beginning of one at its end; the separator
keeps that from going on. -/
theorem separated (color : Bool) (attributes : List Attribute) (text : String) {separator : String}
    (hseparator : Separates separator) :
    Leaves (styled color attributes text ++ separator)
      (strip text.toList ++ separator.toList) := by
  intro rest
  rw [String.toList_append, List.append_assoc,
    strip_styled_append color attributes text (hseparator.breaks rest),
    strip_append_of_notMem hseparator.1, List.append_assoc]

end Leaves

/-- Two texts show the same, whatever follows them.  The relation is closed
under writing one text behind another, and a report is put together from pieces
for which it holds. -/
def SameShown (s t : String) : Prop := ∃ shown, Leaves s shown ∧ Leaves t shown

namespace SameShown

variable {s t s' t' : String}

theorem strip_eq (h : SameShown s t) : strip s.toList = strip t.toList := by
  obtain ⟨shown, hs, ht⟩ := h
  rw [hs.strip_eq, ht.strip_eq]

theorem append (h : SameShown s t) (h' : SameShown s' t') : SameShown (s ++ s') (t ++ t') := by
  obtain ⟨shown, hs, ht⟩ := h
  obtain ⟨shown', hs', ht'⟩ := h'
  exact ⟨shown ++ shown', hs.append hs', ht.append ht'⟩

theorem literal {text : String} (htext : '\x1b' ∉ text.toList) : SameShown text text :=
  ⟨text.toList, .literal htext, .literal htext⟩

theorem label {attributes : List Attribute} {text : String} (htext : '\x1b' ∉ text.toList) :
    SameShown (styled true attributes text) (styled false attributes text) :=
  ⟨text.toList, .label true attributes htext, .label false attributes htext⟩

theorem separated (attributes : List Attribute) (text : String) {separator : String}
    (hseparator : Separates separator) :
    SameShown (styled true attributes text ++ separator)
      (styled false attributes text ++ separator) :=
  ⟨_, .separated true attributes text hseparator, .separated false attributes text hseparator⟩

/-- A text with a separator behind it, written after others. -/
theorem append_separated (h : SameShown s t) (text : String) {separator : String}
    (hseparator : Separates separator) :
    SameShown (s ++ text ++ separator) (t ++ text ++ separator) := by
  have htext := Leaves.separated false [] text hseparator
  rw [String.append_assoc, String.append_assoc]
  exact h.append ⟨_, htext, htext⟩

theorem join {α : Type} {f g : α → String} (h : ∀ a, SameShown (f a) (g a)) (as : List α) :
    SameShown (String.join (as.map f)) (String.join (as.map g)) := by
  induction as with
  | nil => exact ⟨[], fun _ => rfl, fun _ => rfl⟩
  | cons a as ih =>
      rw [List.map_cons, List.map_cons, String.join_cons, String.join_cons]
      exact (h a).append ih

/-- A list under its heading, written after others. -/
theorem listing (h : SameShown s t) (heading : String) (hheading : '\x1b' ∉ heading.toList)
    {α : Type} {f g : α → String} (hline : ∀ a, SameShown (f a) (g a)) (as : List α) :
    SameShown (s ++ styled true [.bold] heading ++ "\n" ++ String.join (as.map f))
      (t ++ styled false [.bold] heading ++ "\n" ++ String.join (as.map g)) :=
  ((h.append (.label hheading)).append (.literal (by decide))).append (.join hline as)

end SameShown

end Styled

open Styled

theorem Severity.notMem_name (severity : Severity) : '\x1b' ∉ severity.name.toList := by
  cases severity <;> decide

theorem Check.notMem_code (check : Check) : '\x1b' ∉ check.code.toList := by
  cases check <;> decide

theorem Check.notMem_name (check : Check) : '\x1b' ∉ check.name.toList := by
  cases check <;> decide

/-- A finding shows the same in every colour. -/
theorem Diagnostic.sameShown_report (program : String) (d : Diagnostic) :
    SameShown (d.report true program) (d.report false program) := by
  unfold report
  refine .append (.append ?_ ?suggestion) (.literal (by decide))
  case suggestion =>
    cases d.suggestion with
    | none => exact .literal (by decide)
    | some suggestion =>
        refine .append_separated ?_ suggestion (by decide)
        exact .append (.append (.literal (by decide)) (.label (by decide))) (.literal (by decide))
  -- The line of the program, from its end.
  refine .append (.append ?_ (.literal d.check.notMem_name)) (.literal (by decide))
  refine .append_separated ?_ program (by decide)
  refine .append (.append (.append ?_ (.literal (by decide))) (.label (by decide)))
    (.literal (by decide))
  -- The line of the message.
  refine .append_separated ?_ d.message (by decide)
  exact .append (.append (.append (.label d.severity.notMem_name) (.literal (by decide)))
    (.label d.check.notMem_code)) (.literal (by decide))

/-- The last line of a report shows the same in every colour. -/
theorem Analysis.sameShown_verdict (a : Analysis) :
    SameShown (a.verdict true) (a.verdict false) := by
  unfold verdict
  split
  · exact .append (.label (by decide)) (.literal (by decide))
  · have hcount := notMem_toString_nat (show '\x1b'.isDigit = false from rfl)
    refine .literal ?_
    simp only [String.toList_append, List.mem_append, not_or]
    exact ⟨⟨⟨⟨by decide, hcount _⟩, by decide⟩, hcount _⟩, by decide⟩

theorem Analysis.sameShown_report (a : Analysis) (program : String) :
    SameShown (a.report true program) (a.report false program) := by
  unfold report
  exact .append (.join (Diagnostic.sameShown_report program) _) a.sameShown_verdict

/-- An edge shows the same in every colour. -/
theorem Flow.sameShown_edge (source target : String) :
    SameShown ("  " ++ source ++ " " ++ styled true [.blue] "->" ++ " " ++ target ++ "\n")
      ("  " ++ source ++ " " ++ styled false [.blue] "->" ++ " " ++ target ++ "\n") := by
  have hsource : SameShown ("  " ++ source ++ " ") ("  " ++ source ++ " ") :=
    .append_separated (.literal (by decide)) source (by decide)
  exact .append_separated (.append (.append hsource (.label (by decide))) (.literal (by decide)))
    target (by decide)

/-- A vertex shows the same in every colour. -/
theorem Flow.sameShown_vertex (hue : Attribute) (vertex : String) :
    SameShown ("  " ++ styled true [hue] vertex ++ "\n")
      ("  " ++ styled false [hue] vertex ++ "\n") := by
  rw [String.append_assoc, String.append_assoc]
  exact .append (.literal (by decide)) (.separated [hue] vertex (by decide))

/-- The line of the start shows the same in every colour. -/
theorem Flow.sameShown_start (start : Option Occurrence) :
    SameShown
      (styled true [.bold] "start:" ++ " " ++
        (match start with
          | some start => start.text
          | none => "(empty program)") ++ "\n")
      (styled false [.bold] "start:" ++ " " ++
        (match start with
          | some start => start.text
          | none => "(empty program)") ++ "\n") := by
  have hheading : SameShown (styled true [.bold] "start:" ++ " ")
      (styled false [.bold] "start:" ++ " ") :=
    .append (.label (by decide)) (.literal (by decide))
  cases start with
  | none => exact .append (.append hheading (.literal (by decide))) (.literal (by decide))
  | some start => exact .append_separated hheading start.text (by decide)

/-- A flow graph shows the same in every colour. -/
theorem Flow.sameShown_report (flow : Flow) :
    SameShown (flow.report true) (flow.report false) := by
  unfold report
  have hstart := sameShown_start flow.start
  have hedges := hstart.listing "edges:" (by decide)
    (fun edge : Occurrence × Occurrence => sameShown_edge edge.1.text edge.2.text) flow.edges
  have hreachable := hedges.listing "reachable:" (by decide)
    (fun vertex : Occurrence => sameShown_vertex .green vertex.text) flow.reachability.reachable
  exact hreachable.listing "unreachable:" (by decide)
    (fun vertex : Occurrence => sameShown_vertex .red vertex.text) flow.reachability.unreachable

/-- Coloured and plain reports hold the same text. -/
theorem Styled.strip_report :
    (∀ (a : Analysis) (program : String),
      strip (a.report true program).toList = strip (a.report false program).toList) ∧
    ∀ flow : Flow, strip (flow.report true).toList = strip (flow.report false).toList :=
  ⟨fun a program => (a.sameShown_report program).strip_eq,
    fun flow => flow.sameShown_report.strip_eq⟩

end StraightLine
