import StraightLine.Layout
import StraightLine.Proofs.NumberText

/-!
# Source text is unambiguous

Two programs that are written out in the same way are the same program.  This is unique readability:
a text that starts with an expression starts with one expression only, provided that what follows
cannot be read as a part of it, and the same holds of statements.

## Main definitions

* `IsIdentifier` — letters, digits and underscores, the first of them no digit.
* `Expr.Readable`, `Stmt.Readable` — all names are identifiers, and all floating numbers are finite.
* `Stops` — what can follow a name or a number in a text.

## Main statements

* `Expr.text_append_inj` — a text starts with at most one expression that is stopped.
* `Stmt.textAt_append_inj` — the same for statements, and for the statements of a block.
* `Stmt.text_unambiguous` — equal texts are texts of equal programs.

## Design notes

* **Two trees, one induction.**  No text is parsed: the induction is on one of two trees with equal
  texts, and each step finds the same construct at the root of the other and cancels it.
* **Three characters decide.**  An opening parenthesis tells an operation from an atom; the first
  character of an atom tells a name from a number; and the character behind the first blank tells
  an assignment to a variable that happens to be called `return` from a return.
* **Indentation does not matter.**  The margin of a block ends before a closing brace, where a
  statement of the block has a blank of its own or, without any indentation, another character.
-/

namespace StraightLine

/-! ## Splitting texts -/

/-- Two texts that go on with a character of another kind, or end, are the same
up to there.  Names and numbers are cut off in this way, since neither has a
mark at its end. -/
theorem append_inj_of_kind {p : Char → Bool} {xs ys rest rest' : List Char}
    (hxs : ∀ c ∈ xs, p c = true) (hys : ∀ c ∈ ys, p c = true)
    (hrest : ∀ c ∈ rest.head?, p c = false) (hrest' : ∀ c ∈ rest'.head?, p c = false)
    (h : xs ++ rest = ys ++ rest') : xs = ys ∧ rest = rest' := by
  have hnone : ∀ {zs : List Char}, (∀ c ∈ zs.head?, p c = false) → zs.takeWhile p = [] := by
    intro zs hzs
    cases zs with
    | nil => rfl
    | cons c zs => rw [List.takeWhile_cons, if_neg (by simp [hzs c rfl])]
  have hsame := congrArg (List.takeWhile p) h
  rw [List.takeWhile_append_of_pos hxs, List.takeWhile_append_of_pos hys, hnone hrest,
    hnone hrest', List.append_nil, List.append_nil] at hsame
  exact ⟨hsame, List.append_cancel_left (hsame ▸ h)⟩

/-- The first blank is where two texts part that have none before it. -/
theorem append_blank_inj {xs ys rest rest' : List Char} (hxs : ' ' ∉ xs) (hys : ' ' ∉ ys)
    (h : xs ++ ' ' :: rest = ys ++ ' ' :: rest') : xs = ys ∧ rest = rest' := by
  have hne : ∀ {zs : List Char}, ' ' ∉ zs → ∀ c ∈ zs, (c != ' ') = true := by
    intro zs hzs c hc
    rw [bne_iff_ne]
    rintro rfl
    exact hzs hc
  obtain ⟨hsame, hrest⟩ := append_inj_of_kind (p := (· != ' ')) (hne hxs) (hne hys)
    (by simp) (by simp) h
  exact ⟨hsame, (List.cons.inj hrest).2⟩

/-! ## Names and numbers -/

/-- Whether an identifier can start with a character. -/
def isNameStart (c : Char) : Bool := c.isAlpha || c == '_'

/-- Whether an identifier can go on with a character. -/
def isNameChar (c : Char) : Bool := c.isAlphanum || c == '_'

/-- Letters, digits and underscores, the first of them no digit. -/
def IsIdentifier (name : String) : Prop :=
  name.toList.head?.any isNameStart = true ∧ name.toList.all isNameChar = true

instance : DecidablePred IsIdentifier := fun name =>
  inferInstanceAs (Decidable
    (name.toList.head?.any isNameStart = true ∧ name.toList.all isNameChar = true))

theorem IsIdentifier.exists_head {name : String} (h : IsIdentifier name) :
    ∃ first tail, name.toList = first :: tail ∧ isNameStart first = true := by
  obtain ⟨first, hfirst, hstart⟩ := (Option.any_eq_true _ _).mp h.1
  obtain ⟨tail, htail⟩ := List.head?_eq_some_iff.mp hfirst
  exact ⟨first, tail, htail, hstart⟩

theorem IsIdentifier.isNameChar {name : String} (h : IsIdentifier name) :
    ∀ c ∈ name.toList, isNameChar c = true :=
  List.all_eq_true.mp h.2

/-- The characters of names and numbers. -/
def isAtomic (c : Char) : Bool := isNameChar c || isNumeric c

/-- Whether a name or a number ends before a text.  It is asked of what follows
an expression; the texts that follow one here start with a blank, a newline or a
closing parenthesis, or are empty. -/
def Stops (rest : List Char) : Prop := ∀ c ∈ rest.head?, isAtomic c = false

theorem stops_nil : Stops [] := by
  intro c hc
  cases hc

theorem stops_cons {c : Char} (rest : List Char) (h : isAtomic c = false) : Stops (c :: rest) := by
  intro d hd
  cases hd
  exact h

/-- Letters come behind digits. -/
theorem le_toNat_of_isAlpha {c : Char} (h : c.isAlpha = true) : 65 ≤ c.toNat := by
  rcases (Bool.or_eq_true c.isUpper c.isLower).mp h with hupper | hlower
  · have hle : 'A'.val ≤ c.val := (of_decide_eq_true hupper).1
    exact UInt32.le_iff_toNat_le.mp hle
  · have hle : 'a'.val ≤ c.val := of_decide_eq_true ((Bool.and_eq_true _ _).mp hlower).1
    exact Nat.le_trans (by decide) (UInt32.le_iff_toNat_le.mp hle)

theorem isNumeric_eq_false_of_isNameStart {c : Char} (h : isNameStart c = true) :
    isNumeric c = false := by
  rw [Bool.eq_false_iff]
  intro hnumeric
  simp only [isNumeric, Bool.or_eq_true, beq_iff_eq] at hnumeric
  rcases hnumeric with (hdigit | rfl) | rfl
  · rw [isNameStart, Bool.or_eq_true, beq_iff_eq] at h
    rcases h with halpha | rfl
    · have hletter := le_toNat_of_isAlpha halpha
      have hle := (Char.isDigit_iff_toNat.mp hdigit).2
      have hnine : '9'.toNat = 57 := rfl
      omega
    · cases hdigit
  · cases h
  · cases h

theorem isAtomic_of_isNumeric {c : Char} (h : isNumeric c = true) : isAtomic c = true := by
  rw [isAtomic, h, Bool.or_true]

theorem isAtomic_of_isNameChar {c : Char} (h : isNameChar c = true) : isAtomic c = true := by
  rw [isAtomic, h, Bool.true_or]

theorem IsIdentifier.blank_not_mem {name : String} (h : IsIdentifier name) :
    ' ' ∉ name.toList :=
  fun hmem => absurd (h.isNameChar ' ' hmem) (by decide)

/-! ## Expressions -/

theorem Operator.symbol_injective : Function.Injective symbol := by
  intro op op'
  cases op <;> cases op' <;> decide

theorem Operator.blank_not_mem_symbol (op : Operator) : ' ' ∉ op.symbol.toList := by
  cases op <;> decide

namespace Expr

/-- All names are identifiers, and all floating numbers are finite. -/
def Readable (e : Expr) : Prop :=
  (∀ name ∈ e.reads, IsIdentifier name) ∧ ∀ v ∈ e.literals, v.Finite

instance : DecidablePred Readable := fun e =>
  inferInstanceAs (Decidable ((∀ name ∈ e.reads, IsIdentifier name) ∧ ∀ v ∈ e.literals, v.Finite))

theorem readable_binary {op : Operator} {left right : Expr} :
    (binary op left right).Readable ↔ left.Readable ∧ right.Readable := by
  simp only [Readable, reads_binary, literals_binary, List.forall_mem_append]
  exact and_and_and_comm

/-- Whether an expression is a single name or number. -/
def isAtom : Expr → Bool
  | .literal _ => true
  | .variable _ => true
  | .binary .. => false

/-- An atom is written with atomic characters, at least one. -/
theorem isAtomic_text {a : Expr} (hatom : a.isAtom = true) (ha : a.Readable) :
    a.text.toList ≠ [] ∧ ∀ c ∈ a.text.toList, isAtomic c = true := by
  cases a with
  | literal v =>
      obtain ⟨hne, hchars⟩ := Value.isNumeric_text (ha.2 v (List.mem_singleton_self v))
      exact ⟨hne, fun c hc => isAtomic_of_isNumeric (hchars c hc)⟩
  | «variable» name =>
      have hname := ha.1 name (List.mem_singleton_self name)
      obtain ⟨first, tail, htail, -⟩ := hname.exists_head
      refine ⟨?_, fun c hc => isAtomic_of_isNameChar (hname.isNameChar c hc)⟩
      rw [text, htail]
      exact List.cons_ne_nil first tail
  | binary op left right => cases hatom

/-- A name is no number: its first character is a letter or an underscore, and
no number has one of these. -/
theorem text_literal_ne {v : Value} {name : String} (hv : v.Finite) (hname : IsIdentifier name) :
    v.text ≠ name := by
  rintro rfl
  obtain ⟨first, tail, htail, hstart⟩ := hname.exists_head
  have hnumeric := (Value.isNumeric_text hv).2 first (htail ▸ List.mem_cons_self)
  rw [isNumeric_eq_false_of_isNameStart hstart] at hnumeric
  cases hnumeric

/-- Atoms with the same text are equal. -/
theorem atom_text_injective {a b : Expr} (hatom : a.isAtom = true) (hatom' : b.isAtom = true)
    (ha : a.Readable) (hb : b.Readable) (h : a.text = b.text) : a = b := by
  cases a with
  | literal v =>
      have hv := ha.2 v (List.mem_singleton_self v)
      cases b with
      | literal v' =>
          exact congrArg literal
            (Value.text_injective hv (hb.2 v' (List.mem_singleton_self v')) h)
      | «variable» name =>
          exact absurd h (text_literal_ne hv (hb.1 name (List.mem_singleton_self name)))
      | binary op left right => cases hatom'
  | «variable» name =>
      cases b with
      | literal v =>
          exact absurd h.symm (text_literal_ne (hb.2 v (List.mem_singleton_self v))
            (ha.1 name (List.mem_singleton_self name)))
      | «variable» name' => exact congrArg «variable» h
      | binary op left right => cases hatom'
  | binary op left right => cases hatom

theorem toList_text_binary (op : Operator) (left right : Expr) :
    (binary op left right).text.toList =
      '(' :: (left.text.toList ++ ' ' ::
        (op.symbol.toList ++ ' ' :: (right.text.toList ++ [')']))) := by
  simp [text]

/-- What starts with an atom that is stopped starts with no other expression
that is stopped.  An operation starts with a parenthesis, and another atom would
have to end at the same place. -/
theorem atom_append_inj {a e : Expr} {rest rest' : List Char} (hatom : a.isAtom = true)
    (ha : a.Readable) (he : e.Readable) (hrest : Stops rest) (hrest' : Stops rest')
    (h : a.text.toList ++ rest = e.text.toList ++ rest') : a = e ∧ rest = rest' := by
  obtain ⟨hne, hchars⟩ := isAtomic_text hatom ha
  cases hatom' : e.isAtom with
  | true =>
      obtain ⟨htext, hsame⟩ :=
        append_inj_of_kind hchars (isAtomic_text hatom' he).2 hrest hrest' h
      exact ⟨atom_text_injective hatom hatom' ha he (String.toList_inj.mp htext), hsame⟩
  | false =>
      cases e with
      | binary op left right =>
          -- An operation starts with a parenthesis.
          obtain ⟨first, tail, htext⟩ := List.exists_cons_of_ne_nil hne
          rw [htext, toList_text_binary] at h
          have hfirst := hchars first (htext ▸ List.mem_cons_self)
          rw [(List.cons.inj h).1] at hfirst
          cases hfirst
      | literal v => cases hatom'
      | «variable» name => cases hatom'

/-- **A text starts with at most one expression that is stopped.** What follows
the two expressions is arbitrary and shown to be the same, which is what an
induction needs for the operands: each of them is followed by the rest of the
operation. -/
theorem text_append_inj {e e' : Expr} {rest rest' : List Char} (he : e.Readable)
    (he' : e'.Readable) (hrest : Stops rest) (hrest' : Stops rest')
    (h : e.text.toList ++ rest = e'.text.toList ++ rest') : e = e' ∧ rest = rest' := by
  induction e generalizing e' rest rest' with
  | literal v => exact atom_append_inj rfl he he' hrest hrest' h
  | «variable» name => exact atom_append_inj rfl he he' hrest hrest' h
  | binary op left right ihleft ihright =>
      cases e' with
      | literal v =>
          cases (atom_append_inj rfl he' he hrest' hrest h.symm).1
      | «variable» name =>
          cases (atom_append_inj rfl he' he hrest' hrest h.symm).1
      | binary op' left' right' =>
          obtain ⟨hleft, hright⟩ := readable_binary.mp he
          obtain ⟨hleft', hright'⟩ := readable_binary.mp he'
          rw [toList_text_binary, toList_text_binary] at h
          simp only [List.cons_append, List.append_assoc, List.nil_append, List.cons.injEq,
            true_and] at h
          have hblank (tail : List Char) : Stops (' ' :: tail) := stops_cons tail (by decide)
          obtain ⟨rfl, hoperation⟩ := ihleft hleft hleft' (hblank _) (hblank _) h
          obtain ⟨hsymbol, hoperand⟩ := append_blank_inj op.blank_not_mem_symbol
            op'.blank_not_mem_symbol (List.cons.inj hoperation).2
          have hparenthesis (tail : List Char) : Stops (')' :: tail) := stops_cons tail (by decide)
          obtain ⟨rfl, hclosing⟩ :=
            ihright hright hright' (hparenthesis _) (hparenthesis _) hoperand
          rw [Operator.symbol_injective (String.toList_inj.mp hsymbol)]
          exact ⟨rfl, (List.cons.inj hclosing).2⟩

/-- No expression starts with an equals sign. -/
theorem head?_text_ne (e : Expr) (he : e.Readable) (rest : List Char) :
    (e.text.toList ++ rest).head? ≠ some '=' := by
  cases hatom : e.isAtom with
  | true =>
      obtain ⟨hne, hchars⟩ := isAtomic_text hatom he
      obtain ⟨first, tail, htext⟩ := List.exists_cons_of_ne_nil hne
      have hfirst := hchars first (htext ▸ List.mem_cons_self)
      rw [htext]
      rintro ⟨⟩
      cases hfirst
  | false =>
      cases e with
      | binary op left right =>
          rw [toList_text_binary]
          rintro ⟨⟩
      | literal v => cases hatom
      | «variable» name => cases hatom

end Expr

/-! ## Statements -/

namespace Action

/-- All names are identifiers, and all floating numbers are finite. -/
def Readable (a : Action) : Prop := (∀ target ∈ a.target?, IsIdentifier target) ∧ a.value.Readable

instance : DecidablePred Readable := fun a =>
  inferInstanceAs (Decidable ((∀ target ∈ a.target?, IsIdentifier target) ∧ a.value.Readable))

theorem toList_text_assign (target : String) (value : Expr) :
    (assign target value).text.toList =
      target.toList ++ ' ' :: '=' :: ' ' :: value.text.toList := by
  simp [text]

theorem toList_text_ret (value : Expr) :
    (ret value).text.toList = "return".toList ++ ' ' :: value.text.toList := by
  simp [text]

/-- An action starts like a name. -/
theorem exists_head_text {a : Action} (ha : a.Readable) :
    ∃ first tail, a.text.toList = first :: tail ∧ isNameStart first = true := by
  cases a with
  | assign target value =>
      obtain ⟨first, tail, htail, hstart⟩ := (ha.1 target rfl).exists_head
      refine ⟨first, tail ++ ' ' :: '=' :: ' ' :: value.text.toList, ?_, hstart⟩
      rw [toList_text_assign, htail]
      rfl
  | ret value =>
      rw [toList_text_ret]
      exact ⟨'r', _, rfl, by decide⟩

/-- An assignment is no return, not even if its target is called so: behind the first blank stands
an equals sign, with which no expression starts. -/
theorem text_assign_append_ne {target : String} {value value' : Expr} {rest rest' : List Char}
    (htarget : IsIdentifier target) (hvalue' : value'.Readable) :
    (assign target value).text.toList ++ rest ≠ (ret value').text.toList ++ rest' := by
  intro h
  rw [toList_text_assign, toList_text_ret, List.append_assoc, List.append_assoc, List.cons_append,
    List.cons_append] at h
  obtain ⟨-, h⟩ := append_blank_inj htarget.blank_not_mem (by decide) h
  exact Expr.head?_text_ne value' hvalue' rest' (congrArg List.head? h).symm

/-- A text starts with at most one action that is stopped. -/
theorem text_append_inj {a a' : Action} {rest rest' : List Char} (ha : a.Readable)
    (ha' : a'.Readable) (hrest : Stops rest) (hrest' : Stops rest')
    (h : a.text.toList ++ rest = a'.text.toList ++ rest') : a = a' ∧ rest = rest' := by
  cases a with
  | assign target value =>
      cases a' with
      | assign target' value' =>
          rw [toList_text_assign, toList_text_assign, List.append_assoc, List.append_assoc,
            List.cons_append, List.cons_append] at h
          obtain ⟨htarget, h⟩ := append_blank_inj (ha.1 target rfl).blank_not_mem
            (ha'.1 target' rfl).blank_not_mem h
          obtain ⟨hvalue, hsame⟩ := Expr.text_append_inj ha.2 ha'.2 hrest hrest'
            (List.cons.inj (List.cons.inj h).2).2
          exact ⟨congrArg₂ assign (String.toList_inj.mp htarget) hvalue, hsame⟩
      | ret value' => exact absurd h (text_assign_append_ne (ha.1 target rfl) ha'.2)
  | ret value =>
      cases a' with
      | assign target' value' =>
          exact absurd h.symm (text_assign_append_ne (ha'.1 target' rfl) ha.2)
      | ret value' =>
          rw [toList_text_ret, toList_text_ret, List.append_assoc, List.append_assoc] at h
          obtain ⟨hvalue, hsame⟩ := Expr.text_append_inj ha.2 ha'.2 hrest hrest'
            (List.cons.inj (List.append_cancel_left h)).2
          exact ⟨congrArg ret hvalue, hsame⟩

end Action

/-- The blanks before a line at a nesting level. -/
def blanks (indent level : Nat) : List Char := List.replicate (level * indent) ' '

theorem toList_margin (indent level : Nat) :
    (margin indent level).toList = blanks indent level := by
  rw [margin, toList_pushn]
  rfl

theorem blanks_succ (indent level : Nat) :
    blanks indent (level + 1) = blanks indent level ++ List.replicate indent ' ' := by
  rw [blanks, Nat.succ_mul, ← List.replicate_append_replicate]
  rfl

namespace Stmt

/-- All names are identifiers, and all floating numbers are finite. -/
def Readable (s : Stmt) : Prop := ∀ a ∈ s.actions, a.Readable

instance : DecidablePred Readable := fun s =>
  inferInstanceAs (Decidable (∀ a ∈ s.actions, a.Readable))

theorem readable_cons {s : Stmt} {rest : List Stmt} :
    (∀ a ∈ actionsOf (s :: rest), a.Readable) ↔
      s.Readable ∧ ∀ a ∈ actionsOf rest, a.Readable := by
  rw [actionsOf_cons]
  exact List.forall_mem_append

theorem toList_textAt_action (indent level : Nat) (a : Action) :
    ((Stmt.action a).textAt indent level).toList = blanks indent level ++ a.text.toList := by
  rw [textAt, String.toList_append, toList_margin]

theorem toList_textAt_block (indent level : Nat) (body : List Stmt) :
    ((Stmt.block body).textAt indent level).toList =
      blanks indent level ++ '\x7b' :: '\n' :: ((textOf indent (level + 1) body).toList ++
        (blanks indent level ++ ['\x7d'])) := by
  rw [textAt]
  simp only [String.toList_append, toList_margin, List.append_assoc]
  rfl

theorem toList_textOf_cons (indent level : Nat) (s : Stmt) (rest : List Stmt) :
    (textOf indent level (s :: rest)).toList =
      (s.textAt indent level).toList ++ '\n' :: (textOf indent level rest).toList := by
  rw [textOf]
  simp only [String.toList_append, List.append_assoc]
  rfl

/-- An action is no block. -/
theorem textAt_action_append_ne {indent level : Nat} {a : Action} {body : List Stmt}
    {rest rest' : List Char} (ha : a.Readable) :
    ((Stmt.action a).textAt indent level).toList ++ rest ≠
      ((Stmt.block body).textAt indent level).toList ++ rest' := by
  intro h
  obtain ⟨first, tail, htext, hstart⟩ := Action.exists_head_text ha
  rw [toList_textAt_action, toList_textAt_block, List.append_assoc, List.append_assoc, htext] at h
  have hfirst : first = '\x7b' := (List.cons.inj (List.append_cancel_left h)).1
  rw [hfirst] at hstart
  cases hstart

/-- The first character of a statement behind its margin is no closing brace.
An action starts with a name, `return` among them, and a block with an opening
brace. -/
theorem exists_head_textAt {s : Stmt} (hs : s.Readable) (indent level : Nat) :
    ∃ first tail, (s.textAt indent level).toList = blanks indent level ++ first :: tail ∧
      first ≠ '\x7d' := by
  cases s with
  | action a =>
      obtain ⟨first, tail, htext, hstart⟩ :=
        Action.exists_head_text (hs a (List.mem_singleton_self a))
      refine ⟨first, tail, by rw [toList_textAt_action, htext], ?_⟩
      rintro rfl
      cases hstart
  | block body =>
      exact ⟨_, _, toList_textAt_block indent level body, by decide⟩

/-- Where a block ends, none of its statements starts.  With indentation the
statement has more blanks in front of it; without any, its first character
tells. -/
theorem textAt_append_ne_closing {s : Stmt} (hs : s.Readable) (indent level : Nat)
    (rest rest' : List Char) :
    (s.textAt indent (level + 1)).toList ++ rest ≠ blanks indent level ++ '\x7d' :: rest' := by
  intro h
  obtain ⟨first, tail, htext, hfirst⟩ := exists_head_textAt hs indent (level + 1)
  rw [htext, blanks_succ, List.append_assoc, List.append_assoc] at h
  have hhead := congrArg List.head? (List.append_cancel_left h)
  cases indent with
  | zero => exact hfirst (Option.some.inj hhead)
  | succ indent => exact absurd (Option.some.inj hhead) (by decide)

/-- **A text starts with at most one statement that is stopped,** and up to a
closing brace it has the statements of at most one block.

The statements of a block are compared together with the brace that ends them.
Without the brace one list could be a beginning of the other, and the shorter
one would be followed by anything. -/
theorem textAt_append_inj (indent : Nat) :
    (∀ (s : Stmt) (level : Nat) (s' : Stmt) (rest rest' : List Char), s.Readable → s'.Readable →
        Stops rest → Stops rest' →
        (s.textAt indent level).toList ++ rest = (s'.textAt indent level).toList ++ rest' →
        s = s' ∧ rest = rest') ∧
      ∀ (body : List Stmt) (level : Nat) (body' : List Stmt) (rest rest' : List Char),
        (∀ a ∈ actionsOf body, a.Readable) → (∀ a ∈ actionsOf body', a.Readable) →
        (textOf indent (level + 1) body).toList ++ (blanks indent level ++ '\x7d' :: rest) =
          (textOf indent (level + 1) body').toList ++ (blanks indent level ++ '\x7d' :: rest') →
        body = body' ∧ rest = rest' := by
  refine Stmt.induction ?action ?block ?nil ?cons
  case action =>
    intro a level s' rest rest' hs hs' hrest hrest' h
    have ha := hs a (List.mem_singleton_self a)
    cases s' with
    | action a' =>
        rw [toList_textAt_action, toList_textAt_action, List.append_assoc, List.append_assoc] at h
        obtain ⟨rfl, hsame⟩ := Action.text_append_inj ha (hs' a' (List.mem_singleton_self a'))
          hrest hrest' (List.append_cancel_left h)
        exact ⟨rfl, hsame⟩
    | block body' => exact absurd h (textAt_action_append_ne ha)
  case block =>
    intro body ih level s' rest rest' hs hs' hrest hrest' h
    cases s' with
    | action a' =>
        exact absurd h.symm (textAt_action_append_ne (hs' a' (List.mem_singleton_self a')))
    | block body' =>
        rw [toList_textAt_block, toList_textAt_block] at h
        simp only [List.append_assoc, List.cons_append, List.nil_append, List.append_cancel_left_eq,
          List.cons.injEq, true_and] at h
        obtain ⟨rfl, hsame⟩ := ih level body' rest rest' hs hs' h
        exact ⟨rfl, hsame⟩
  case nil =>
    intro level body' rest rest' _ hbody' h
    cases body' with
    | nil => exact ⟨rfl, (List.cons.inj (List.append_cancel_left h)).2⟩
    | cons s' body' =>
        rw [toList_textOf_cons, List.append_assoc] at h
        -- One text is at its closing brace where the other one begins a statement.
        exact (textAt_append_ne_closing (readable_cons.mp hbody').1 _ _ _ _ h.symm).elim
  case cons =>
    intro s body ihs ihbody level body' rest rest' hbody hbody' h
    obtain ⟨hs, hlater⟩ := readable_cons.mp hbody
    rw [toList_textOf_cons, List.append_assoc] at h
    cases body' with
    | nil => exact (textAt_append_ne_closing hs _ _ _ _ h).elim
    | cons s' body' =>
        obtain ⟨hs', hlater'⟩ := readable_cons.mp hbody'
        rw [toList_textOf_cons, List.append_assoc] at h
        -- Every statement of a block ends at a line feed, which is part of neither statement.
        have hnewline (tail : List Char) : Stops ('\n' :: tail) := stops_cons tail (by decide)
        obtain ⟨rfl, hmore⟩ := ihs (level + 1) s' _ _ hs hs' (hnewline _) (hnewline _) h
        obtain ⟨rfl, hsame⟩ := ihbody level body' rest rest' hlater hlater' (List.cons.inj hmore).2
        exact ⟨rfl, hsame⟩

/-- **Source text is unambiguous.**  For every indentation and at every nesting level, two
statements whose names are identifiers and whose floating numbers are finite have the same text
exactly if they are the same tree, numbers being the same if they agree in kind and in all bits.
The same holds of expressions. -/
theorem text_unambiguous :
    (∀ (indent level : Nat) (s s' : Stmt), s.Readable → s'.Readable →
      (s.textAt indent level = s'.textAt indent level ↔ s = s')) ∧
    ∀ e e' : Expr, e.Readable → e'.Readable → (e.text = e'.text ↔ e = e') := by
  constructor
  · intro indent level s s' hs hs'
    refine ⟨fun h => ?_, fun h => h ▸ rfl⟩
    exact ((textAt_append_inj indent).1 s level s' [] [] hs hs' stops_nil stops_nil
      (by rw [h])).1
  · intro e e' he he'
    refine ⟨fun h => ?_, fun h => h ▸ rfl⟩
    exact (Expr.text_append_inj he he' stops_nil stops_nil (by rw [h])).1

/-- Without any indentation, a return and an assignment to a variable called `return` differ, and so
do a block before a statement and a block around it; the two floating zeros differ as well. -/
theorem text_unambiguous_of_lookalikes :
    let minusOne : Expr := .literal (.int (-1))
    let flat : Stmt := .block [.block [], .ret (.variable "x"), .assign "return" minusOne]
    let nested : Stmt := .block [.block [.ret (.variable "x")], .assign "return" minusOne]
    let difference : Expr := .binary .minus (.variable "x") (.literal (.float (-0.0)))
    let difference' : Expr := .binary .minus (.variable "x") (.literal (.float 0.0))
    (flat.Readable ∧ nested.Readable ∧ difference.Readable ∧ difference'.Readable) ∧
      flat.textAt 0 0 ≠ nested.textAt 0 0 ∧ difference.text ≠ difference'.text := by
  intro minusOne flat nested difference difference'
  have hflat : flat.Readable := by decide
  have hnested : nested.Readable := by decide
  have hdifference : difference.Readable := by decide
  have hdifference' : difference'.Readable := by decide
  obtain ⟨hstmt, hexpr⟩ := text_unambiguous
  refine ⟨⟨hflat, hnested, hdifference, hdifference'⟩, fun h => ?_, fun h => ?_⟩
  · have heq := (hstmt 0 0 flat nested hflat hnested).mp h
    simp [flat, nested] at heq
  · have hzero : (-0.0 : Float) ≠ 0.0 := by decide
    have heq := (hexpr difference difference' hdifference hdifference').mp h
    simp only [difference, difference', Expr.binary.injEq, Expr.literal.injEq,
      Value.float.injEq] at heq
    exact hzero heq.2.2

end Stmt

end StraightLine
