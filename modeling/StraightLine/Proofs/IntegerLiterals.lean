import StraightLine.Proofs.Failing
import StraightLine.Proofs.Writing

/-!
# Integers as literals

An integer that is written with its decimal digits, wherever a literal may stand, is read as the
machine integer of the same value if there is one.  If there is none, it is read as a binary64
number or is out of range; no other machine integer takes its place.

## Main definitions

* `DecimalOf` — the numeral of an integer.
* `ExprWith`, `StmtWith`, `BodyWith`, `SpellsProgramWith` — the form of a part of a program in which
  a given number stands as one of the literals.
* `ReadsInteger` — what can come of an integer in such a place.

## Main statements

* `ExprWith.exprOf`, `ExprWith.fails` — with the number in its place the expression is read, or
  fails like the number; the same for statements and blocks.
* `reads_integer_literals` — integers of any size, in a literal by itself and in programs.

## Design notes

* **A place is the rest of the program.**  The part of a program is a function of the value that the
  literal gets, so "read as the machine integer `w`" is the program with `w` in that place.
* **Nothing is assumed of the size of the number.**  Whether it has a value decides between the two
  outcomes, and both come by the same induction on the place.
-/

namespace StraightLine.Saved

variable {s rest : List Char} {m : Numeral} {levels : Nat}

/-! ### The numeral of an integer -/

/-- The number is written as the decimal digits of the integer, behind a minus
sign if the integer is negative.  It is stated through the text and holds for
one numeral only. -/
def DecimalOf (n : Int) (m : Numeral) : Prop :=
  ∀ rest, Spells (.number m) ((toString n).toList ++ rest) rest

theorem Unsigned.eq_of_negative_eq {m' : Numeral} (h : Unsigned m s rest)
    (h' : Unsigned m' s rest) (hneg : m.negative = m'.negative) (hn : Stops rest) : m = m' := by
  have hr := h.readUnsigned_eq hn
  rw [hneg, h'.readUnsigned_eq hn] at hr
  cases hr
  rfl

/-- A text with a minus sign is no number without one. -/
theorem not_unsigned_minus : ¬ Unsigned m ('-' :: s) rest := by
  rintro ⟨hd, -⟩
  obtain ⟨c, t, heq, hc⟩ := hd.head
  obtain ⟨rfl, -⟩ := List.cons.inj heq
  exact absurd hc (by decide)

theorem NumeralText.unique {m' : Numeral} (h : NumeralText m s rest) (h' : NumeralText m' s rest)
    (hn : Stops rest) : m = m' := by
  cases h with
  | plain hneg hu =>
    cases h' with
    | plain hneg' hu' => exact hu.eq_of_negative_eq hu' (hneg.trans hneg'.symm) hn
    | minus => exact absurd hu not_unsigned_minus
  | minus hneg hu =>
    cases h' with
    | plain _ hu' => exact absurd hu' not_unsigned_minus
    | minus hneg' hu' => exact hu.eq_of_negative_eq hu' (hneg.trans hneg'.symm) hn

theorem NumeralText.skipBlanks_eq (h : NumeralText m s rest) : skipBlanks s = s := by
  obtain ⟨c, t, rfl, rfl | hc⟩ := h.head
  · exact skipBlanks_cons rfl
  · exact skipBlanks_cons (isBlank_of_digit hc)

/-- Up to where no number goes on, a text spells at most one number.  Hence the
digits of an integer determine its numeral, and with it what can be read there. -/
theorem Spells.number_unique {m' : Numeral} (h : Spells (.number m) s rest)
    (h' : Spells (.number m') s rest) (hn : Stops rest) : m = m' := by
  cases h with
  | number hb ht =>
  cases h' with
  | number hb' ht' =>
    have heq := hb.skipBlanks_eq.symm.trans hb'.skipBlanks_eq
    rw [ht.skipBlanks_eq, ht'.skipBlanks_eq] at heq
    subst heq
    exact ht.unique ht' hn

theorem DecimalOf.isInteger_and_signed_eq {n : Int} (h : DecimalOf n m) :
    m.IsInteger ∧ m.signed = n := by
  obtain ⟨m', hint, hsigned, hspells⟩ := spells_int n
  obtain rfl := (h []).number_unique (hspells []) (Blanks.refl []).stops_of_end
  exact ⟨hint, hsigned⟩

/-! ### Places of literals -/

/-- The form of an expression in which the number `m` stands as one of its
literals, and that expression with a value in the place of the literal.

It is `ExprOf` with a hole: one operand of each binary operation on the way
contains the place, the other one is any expression.  The levels are those of
the whole, so the place may be as deep as a program can be. -/
inductive ExprWith (m : Numeral) : Nat → Tree → (Value → Expr) → Prop where
  | literal {levels : Nat} {j : Tree} :
      OneField "literal" j (.number m) → ExprWith m (levels + 1) j .literal
  | left {levels : Nat} {j j₁ o l r : Tree} {op : Operator} {left : Value → Expr} {right : Expr} :
      OneField "binary" j j₁ → RecordOf ["op", "left", "right"] j₁ [o, l, r] →
      OperatorOf levels o op → ExprWith m levels l left → ExprOf levels r right →
      ExprWith m (levels + 2) j fun v => .binary op (left v) right
  | right {levels : Nat} {j j₁ o l r : Tree} {op : Operator} {left : Expr} {right : Value → Expr} :
      OneField "binary" j j₁ → RecordOf ["op", "left", "right"] j₁ [o, l, r] →
      OperatorOf levels o op → ExprOf levels l left → ExprWith m levels r right →
      ExprWith m (levels + 2) j fun v => .binary op left (right v)

/-- The form of a statement in which the number `m` stands as one of its
literals.  In a block the statements before and behind the place are arbitrary. -/
inductive StmtWith (m : Numeral) : Nat → Tree → (Value → Stmt) → Prop where
  | assign {levels : Nat} {j j₁ t a : Tree} {target : String} {value : Value → Expr} :
      OneField "assignment" j j₁ → RecordOf ["target", "value"] j₁ [t, a] →
      NameOf t target → ExprWith m levels a value →
      StmtWith m (levels + 2) j fun v => .assign target (value v)
  | ret {levels : Nat} {j j₁ : Tree} {value : Value → Expr} :
      OneField "return" j j₁ → ExprWith m levels j₁ value →
      StmtWith m (levels + 1) j fun v => .ret (value v)
  | block {levels : Nat} {j k : Tree} {before after : List Tree} {bodyBefore bodyAfter : List Stmt}
      {stmt : Value → Stmt} :
      OneField "block" j (.array (before ++ k :: after)) → StmtsOf levels before bodyBefore →
      StmtWith m levels k stmt → StmtsOf levels after bodyAfter →
      StmtWith m (levels + 2) j fun v => .block (bodyBefore ++ stmt v :: bodyAfter)

/-- The form of the statements of a block in which the number `m` stands as one of the literals. -/
inductive BodyWith (m : Numeral) : Nat → Tree → (Value → List Stmt) → Prop where
  | array {levels : Nat} {k : Tree} {before after : List Tree} {bodyBefore bodyAfter : List Stmt}
      {stmt : Value → Stmt} :
      StmtsOf levels before bodyBefore → StmtWith m levels k stmt →
      StmtsOf levels after bodyAfter →
      BodyWith m (levels + 1) (.array (before ++ k :: after))
        fun v => bodyBefore ++ stmt v :: bodyAfter

/-- A text that spells a program in which the number `m` stands as one of the literals, and that
program with a value in the place of the literal. -/
inductive SpellsProgramWith (m : Numeral) : String → (Value → Stmt) → Prop where
  | block {text : String} {j : Tree} {rest : List Char} {body : Value → List Stmt} :
      Spells j text.toList rest → Blanks rest [] → BodyWith m nestingLimit j body →
      SpellsProgramWith m text fun v => .block (body v)

/-! ### Different values make different programs -/

theorem ExprWith.injective {j : Tree} {e : Value → Expr} (h : ExprWith m levels j e) :
    Function.Injective e := by
  induction h with
  | literal => exact fun _ _ heq => (Expr.literal.inj heq)
  | left _ _ _ _ _ ih => exact fun _ _ heq => ih (Expr.binary.inj heq).2.1
  | right _ _ _ _ _ ih => exact fun _ _ heq => ih (Expr.binary.inj heq).2.2

theorem injective_append_cons {stmt : Value → Stmt} {before after : List Stmt}
    (h : Function.Injective stmt) : Function.Injective fun v => before ++ stmt v :: after :=
  fun _ _ heq => h (List.cons.inj (List.append_cancel_left heq)).1

theorem StmtWith.injective {j : Tree} {stmt : Value → Stmt} (h : StmtWith m levels j stmt) :
    Function.Injective stmt := by
  induction h with
  | assign _ _ _ hvalue =>
    exact fun _ _ heq => hvalue.injective (Action.assign.inj (Stmt.action.inj heq)).2
  | ret _ hvalue => exact fun _ _ heq => hvalue.injective (Action.ret.inj (Stmt.action.inj heq))
  | block _ _ _ _ ih => exact fun _ _ heq => injective_append_cons ih (Stmt.block.inj heq)

theorem SpellsProgramWith.injective {text : String} {program : Value → Stmt}
    (h : SpellsProgramWith m text program) : Function.Injective program := by
  cases h with
  | block _ _ hbody =>
  cases hbody with
  | array _ hstmt _ =>
    exact fun _ _ heq => injective_append_cons hstmt.injective (Stmt.block.inj heq)

/-! ### Numbers in range -/

section InRange

variable {v : Value}

/-- With a literal in its place the expression has its form, so it is read if
the number is. -/
theorem ExprWith.exprOf {j : Tree} {e : Value → Expr} (h : ExprWith m levels j e)
    (hv : LiteralOf (.number m) v) : ExprOf levels j (e v) := by
  induction h with
  | literal hf => exact .literal hf hv
  | left hf hrec ho _ hright ih => exact .binary hf hrec ho ih hright
  | right hf hrec ho hleft _ ih => exact .binary hf hrec ho hleft ih

/-- A statement among others. -/
theorem stmtsOf_append_cons {before after : List Tree} {k : Tree}
    {bodyBefore bodyAfter : List Stmt} {stmt : Stmt} (hbefore : StmtsOf levels before bodyBefore)
    (hk : StmtOf levels k stmt) (hafter : StmtsOf levels after bodyAfter) :
    StmtsOf levels (before ++ k :: after) (bodyBefore ++ stmt :: bodyAfter) := by
  rw [stmtsOf_iff_forall₂] at hbefore hafter ⊢
  exact List.rel_append hbefore (.cons hk hafter)

theorem StmtWith.stmtOf {j : Tree} {stmt : Value → Stmt} (h : StmtWith m levels j stmt)
    (hv : LiteralOf (.number m) v) : StmtOf levels j (stmt v) := by
  induction h with
  | assign hf hrec ht hvalue => exact .assign hf hrec ht (hvalue.exprOf hv)
  | ret hf hvalue => exact .ret hf (hvalue.exprOf hv)
  | block hf hbefore _ hafter ih =>
    exact .block hf (.array (stmtsOf_append_cons hbefore ih hafter))

theorem BodyWith.bodyOf {j : Tree} {body : Value → List Stmt} (h : BodyWith m levels j body)
    (hv : LiteralOf (.number m) v) : BodyOf levels j (body v) := by
  cases h with
  | array hbefore hstmt hafter =>
    exact .array (stmtsOf_append_cons hbefore (hstmt.stmtOf hv) hafter)

theorem SpellsProgramWith.read_eq_ok {text : String} {program : Value → Stmt}
    (h : SpellsProgramWith m text program) (hv : LiteralOf (.number m) v) :
    read text = .ok (program v) := by
  cases h with
  | block hj hb hbody => exact (read_eq_ok_iff text _).2 (.block hj hb (hbody.bodyOf hv))

end InRange

/-! ### Numbers out of range -/

/-- With a number out of range in its place the expression is refused for that
number.  This needs more than the form: what is read before the place must not
fail, and a problem found there has to be passed on by every reader around it. -/
theorem ExprWith.fails {j : Tree} {e : Value → Expr} (h : ExprWith m levels j e)
    (hm : m.value? = none) : Fails (readExpr levels) j .numberOutOfRange := by
  induction h with
  | literal hf =>
    rw [readExpr_succ]
    exact ((fails_readLiteral hm _).map Expr.literal).readTagged hf (by decide)
  | left hf hrec ho _ hright ih =>
    rw [readExpr_succ]
    exact (fails_readBinary_left hrec ho ih hright).readTagged hf (by decide)
  | right hf hrec ho hleft _ ih =>
    rw [readExpr_succ]
    exact (fails_readBinary_right hrec ho hleft ih).readTagged hf (by decide)

/-- A statement that is not read, among others in front of it that are. -/
theorem fails_readBody {before after : List Tree} {k : Tree} {bodyBefore : List Stmt} {e : Problem}
    (hbefore : StmtsOf levels before bodyBefore) (hk : Fails (readStmt levels) k e) :
    Fails (readBody (levels + 1)) (.array (before ++ k :: after)) e := by
  rw [readBody]
  exact hk.readList (reads_readStmt_and_readBody levels).1 (stmtsOf_iff_forall₂.1 hbefore)

theorem StmtWith.fails {j : Tree} {stmt : Value → Stmt} (h : StmtWith m levels j stmt)
    (hm : m.value? = none) : Fails (readStmt levels) j .numberOutOfRange := by
  induction h with
  | assign hf hrec ht hvalue =>
    rw [readStmt_succ]
    exact ((fails_readAssignment hrec ht (hvalue.fails hm)).map Stmt.action).readTagged hf
      (by decide)
  | ret hf hvalue =>
    rw [readStmt_succ]
    exact ((hvalue.fails hm).map Stmt.ret).readTagged hf (by decide)
  | block hf hbefore _ _ ih =>
    rw [readStmt_succ]
    exact ((fails_readBody hbefore ih).map Stmt.block).readTagged hf (by decide)

theorem SpellsProgramWith.read_eq_error {text : String} {program : Value → Stmt}
    (h : SpellsProgramWith m text program) (hm : m.value? = none) :
    read text = .error .numberOutOfRange := by
  cases h with
  | block hj hb hbody =>
  cases hbody with
  | array hbefore hstmt _ =>
    have hwhole := (fails_readBody hbefore (hstmt.fails hm)).whole_eq_error hj hb
    rw [read, nestingLimit, hwhole]
    rfl

/-! ### Integers -/

/-- The result of reading the integer `n` in a place where `put v` has the
literal `v`: the machine integer `n` and no other, which is there exactly from
`-2 ^ 63` to `2 ^ 63 - 1`, and beyond that a binary64 number or the problem that
the number is out of range.

The place is a function, so the same statement is made of a literal by itself
and of a literal anywhere in a program. -/
structure ReadsInteger {α : Type} (n : Int) (put : Value → α) (result : Except Problem α) :
    Prop where
  eq_int_iff : ∀ w : Int64, result = .ok (put (.int w)) ↔ w.toInt = n
  isInt_iff : (∃ w : Int64, result = .ok (put (.int w))) ↔ -2 ^ 63 ≤ n ∧ n ≤ 2 ^ 63 - 1
  beyond : ¬ (-2 ^ 63 ≤ n ∧ n ≤ 2 ^ 63 - 1) →
    (∃ x : Float, result = .ok (put (.float x))) ∨ result = .error .numberOutOfRange

/-- The machine integers are the integers from `-2 ^ 63` to `2 ^ 63 - 1`. -/
theorem exists_toInt_eq_iff {n : Int} :
    (∃ w : Int64, w.toInt = n) ↔ -2 ^ 63 ≤ n ∧ n ≤ 2 ^ 63 - 1 := by
  constructor
  · rintro ⟨w, rfl⟩
    exact ⟨w.le_toInt, Int.le_sub_one_of_lt w.toInt_lt⟩
  · rintro ⟨hlo, hhi⟩
    exact ⟨.ofInt n, Int64.toInt_ofInt_of_le hlo (Int.lt_of_le_sub_one hhi)⟩

/-- A number is a literal, or out of range. -/
theorem exists_literalOf_or (m : Numeral) :
    (∃ v, LiteralOf (.number m) v) ∨ m.value? = none := by
  cases hv : m.value? with
  | none => exact .inr rfl
  | some r => exact .inl ⟨_, toValue_value?_eq_some_iff.1 (congrArg (Option.map toValue) hv)⟩

/-- Where a number in range is put in its place and one out of range is refused,
an integer of any size is read as `ReadsInteger` says.  That `put` is injective
is needed for "no other": two literals in one place make two programs. -/
theorem DecimalOf.readsInteger {α : Type} {n : Int} {put : Value → α} {result : Except Problem α}
    (h : DecimalOf n m) (hput : Function.Injective put)
    (hok : ∀ v, LiteralOf (.number m) v → result = .ok (put v))
    (herror : m.value? = none → result = .error .numberOutOfRange) :
    ReadsInteger n put result := by
  obtain ⟨hint, rfl⟩ := h.isInteger_and_signed_eq
  have hiff (w : Int64) : result = .ok (put (.int w)) ↔ w.toInt = m.signed := by
    refine ⟨fun hw => ?_, fun hw => hok _ (.int hint hw)⟩
    obtain ⟨v, hv⟩ | hm := exists_literalOf_or m
    · rw [hok v hv, Except.ok.injEq] at hw
      obtain rfl := hput hw
      cases hv with
      | int _ hw => exact hw
    · rw [herror hm] at hw
      cases hw
  refine ⟨hiff, ?_, fun hout => ?_⟩
  · simp only [hiff, exists_toInt_eq_iff]
  · obtain ⟨v, hv⟩ | hm := exists_literalOf_or m
    · left
      cases hv with
      | int _ hw => exact absurd (exists_toInt_eq_iff.1 ⟨_, hw⟩) hout
      | float hne hx => exact ⟨_, hok _ (.float hne hx)⟩
    · exact .inr (herror hm)

/-- An integer among the literals of a program. -/
theorem SpellsProgramWith.readsInteger {n : Int} {text : String} {program : Value → Stmt}
    (h : SpellsProgramWith m text program) (hm : DecimalOf n m) :
    ReadsInteger n program (read text) :=
  hm.readsInteger h.injective (fun _ => h.read_eq_ok) h.read_eq_error

/-- An integer among the literals of an expression. -/
theorem ExprWith.readsInteger {n : Int} {text : String} {j : Tree} {e : Value → Expr}
    (h : ExprWith m nestingLimit j e) (hm : DecimalOf n m) (hj : Spells j text.toList rest)
    (hb : Blanks rest []) : ReadsInteger n e (readExprText text) :=
  hm.readsInteger h.injective
    (fun _ hv => (reads_readExpr nestingLimit).whole_eq_ok_iff.2 ⟨j, rest, hj, hb, h.exprOf hv⟩)
    fun hm => (h.fails hm).whole_eq_error hj hb

/-- The text of an integer literal with the given blanks around its parts. -/
def spacedLiteral (blanks : Fin 6 → List Char) (n : Int) : String :=
  String.ofList (blanks 0 ++ '\x7b' :: (blanks 1 ++ '"' :: ("literal".toList ++ '"' :: (blanks 2 ++
    ':' :: (blanks 3 ++ ((toString n).toList ++ (blanks 4 ++ '\x7d' :: blanks 5)))))))

theorem blanks_append {b : List Char} (h : ∀ c ∈ b, isBlank c = true) (s : List Char) :
    Blanks (b ++ s) s := by
  induction b with
  | nil => exact .refl s
  | cons c b ih =>
    obtain ⟨hc, hb⟩ := List.forall_mem_cons.1 h
    exact .blank hc (ih hb)

theorem spells_spacedLiteral {n : Int} {blanks : Fin 6 → List Char}
    (h : ∀ i, ∀ c ∈ blanks i, isBlank c = true) (hm : DecimalOf n m) (rest : List Char) :
    Spells (.object [(piecesOf "literal", .number m)])
      ((spacedLiteral blanks n).toList ++ rest) (blanks 5 ++ rest) := by
  simp only [spacedLiteral, String.toList_ofList, List.append_assoc, List.cons_append]
  exact spells_singleton_iff.2 ⟨_, _, _, _, _, blanks_append (h 0) _, blanks_append (h 1) _,
    pieces_escape "literal".toList, blanks_append (h 2) _,
    .of_blanks (blanks_append (h 3) _) (hm _), blanks_append (h 4) _⟩

theorem exprWith_spacedLiteral :
    ExprWith m (levels + 1) (.object [(piecesOf "literal", .number m)]) .literal :=
  .literal (.object (text?_piecesOf "literal"))

/-- **Integers as literals.**  An integer of any size that is written with its decimal digits is
read, as a literal by itself and in the place of any literal of a program, with any blanks around
it, as the machine integer of that value if there is one, and never as another machine integer. -/
theorem reads_integer_literals (n : Int) :
    (∀ blanks : Fin 6 → List Char, (∀ i, ∀ c ∈ blanks i, isBlank c = true) →
      ReadsInteger n .literal (readExprText (spacedLiteral blanks n))) ∧
    ∀ m text program, DecimalOf n m → SpellsProgramWith m text program →
      ReadsInteger n program (read text) := by
  refine ⟨fun blanks h => ?_, fun m text program hm h => h.readsInteger hm⟩
  obtain ⟨m, -, -, hm⟩ := spells_int n
  have hspells := spells_spacedLiteral h hm []
  have hblanks := blanks_append (h 5) []
  simp only [List.append_nil] at hspells hblanks
  exact exprWith_spacedLiteral.readsInteger hm hspells hblanks

/-- A program that returns an integer. -/
def returnText (blanks : Fin 6 → List Char) (n : Int) : String :=
  "[\x7b\"return\":" ++ spacedLiteral blanks n ++ "\x7d]"

theorem spellsProgramWith_returnText {n : Int} {blanks : Fin 6 → List Char}
    (h : ∀ i, ∀ c ∈ blanks i, isBlank c = true) (hm : DecimalOf n m) :
    SpellsProgramWith m (returnText blanks n) fun v => .block [.ret (.literal v)] := by
  have htext : (returnText blanks n).toList =
      '[' :: '\x7b' :: '"' :: ("return".toList.flatMap Json.escape ++
        '"' :: ':' :: ((spacedLiteral blanks n).toList ++ ['\x7d', ']'])) := by
    simp only [returnText, String.toList_append, List.append_assoc]
    rfl
  have hstmt : Spells (.object [(piecesOf "return", .object [(piecesOf "literal", .number m)])])
      ('\x7b' :: '"' :: ("return".toList.flatMap Json.escape ++
        '"' :: ':' :: ((spacedLiteral blanks n).toList ++ ['\x7d', ']']))) [']'] :=
    spells_singleton_iff.2 ⟨_, _, _, _, _, .refl _, .refl _, pieces_escape "return".toList, .refl _,
      spells_spacedLiteral h hm _, blanks_append (h 5) _⟩
  refine .block (.array (htext ▸ .refl _) (.first hstmt (.closed (.refl _)))) (.refl _)
    (.array .nil (.ret (.object (text?_piecesOf "return")) exprWith_spacedLiteral) .nil)

/-- The first integer that is too great, by itself and in a return. -/
theorem reads_integer_literals_two_pow_63 :
    ∃ m program, let blanks : Fin 6 → List Char := fun _ => [' ', '\n']
      (∀ i, ∀ c ∈ blanks i, isBlank c = true) ∧ DecimalOf (2 ^ 63) m ∧
        SpellsProgramWith m (returnText blanks (2 ^ 63)) program ∧
        ReadsInteger (2 ^ 63) .literal (readExprText (spacedLiteral blanks (2 ^ 63))) ∧
        ReadsInteger (2 ^ 63) program (read (returnText blanks (2 ^ 63))) := by
  obtain ⟨m, -, -, hm⟩ := spells_int (2 ^ 63)
  have hblanks : ∀ _ : Fin 6, ∀ c ∈ [' ', '\n'], isBlank c = true := fun _ => by
    simp [isBlank]
  have hplace := spellsProgramWith_returnText hblanks hm
  exact ⟨m, _, hblanks, hm, hplace, (reads_integer_literals (2 ^ 63)).1 _ hblanks,
    (reads_integer_literals (2 ^ 63)).2 m _ _ hm hplace⟩

end StraightLine.Saved
