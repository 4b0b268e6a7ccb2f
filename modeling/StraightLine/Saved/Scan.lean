import StraightLine.Number.Numeral
import StraightLine.Saved.Problem

/-!
# Saved programs: scanning

The smallest steps of reading: blanks, words, numerals and string literals, and the punctuation of
lists and objects.  A step looks at the text from left to right and stops at the first problem.

## Main definitions

* `Reader` — a step: what was read and the text after it, or a problem.
* `readUnsigned`, `stringBody` — numerals and the inside of string literals.
* `nextItem`, `nextKey` — the punctuation before an item of a list or a field of an object.
* `items`, `fields` — whole lists and objects.

## Design notes

* **Loops are bounded by the length of the text:** every item takes at least one character.
-/

namespace StraightLine.Saved

/-- A step of reading: a value and the rest of the text, or the first problem.
A step never looks behind the problem it reports, so what follows the problem in
the text has no say in it. -/
abbrev Reader (α : Type) := List Char → Except Problem (α × List Char)

/-- The blanks between tokens. -/
def isBlank (c : Char) : Bool := c == ' ' || c == '\t' || c == '\n' || c == '\r'

/-- The text from its first non-blank character on. -/
def skipBlanks (s : List Char) : List Char := s.dropWhile isBlank

/-- Reads the given characters, which are the rest of a word.  What follows the
word is not looked at, so a longer word is a word with something behind it. -/
def readWord : List Char → Reader Unit
  | [], s => .ok ((), s)
  | _ :: _, [] => .error .endInValue
  | w :: ws, c :: s => if c == w then readWord ws s else .error .expectedWord

/-! ### Numerals -/

/-- The value of a decimal digit. -/
def digit? (c : Char) : Option Nat :=
  if '0' ≤ c ∧ c ≤ '9' then some (c.toNat - '0'.toNat) else none

/-- The digits at the start of a text. -/
def readDigits : List Char → List Nat × List Char
  | [] => ([], [])
  | c :: s =>
    match digit? c with
    | some d => let (ds, rest) := readDigits s; (d :: ds, rest)
    | none => ([], c :: s)

/-- The digits before the point: a zero alone, or digits that do not start with
one.  A zero in front of other digits is refused here and not left as the end of
the numeral. -/
def readWhole (s : List Char) : Except Problem (List Nat × List Char) :=
  match readDigits s with
  | ([], []) => .error .endInValue
  | ([], _ :: _) => .error .invalidNumber
  | (0 :: _ :: _, _) => .error .invalidNumber
  | (ds, rest) => .ok (ds, rest)

/-- The point and the digits after it, at least one, if there is a point. -/
def readFraction (s : List Char) : Except Problem (Option (List Nat) × List Char) :=
  match s with
  | '.' :: s =>
    match readDigits s with
    | ([], []) => .error .endInValue
    | ([], _ :: _) => .error .invalidNumber
    | (ds, rest) => .ok (some ds, rest)
  | s => .ok (none, s)

/-- The sign of an exponent; `true` is minus. -/
def readExponentSign : List Char → Bool × List Char
  | '+' :: s => (false, s)
  | '-' :: s => (true, s)
  | s => (false, s)

/-- The exponent with at least one digit, if there is an exponent mark. -/
def readExponent (s : List Char) : Except Problem (Option (Bool × List Nat) × List Char) :=
  let afterMark (s : List Char) : Except Problem (Option (Bool × List Nat) × List Char) :=
    let (negative, s) := readExponentSign s
    match readDigits s with
    | ([], []) => .error .endInValue
    | ([], _ :: _) => .error .invalidNumber
    | (ds, rest) => .ok (some (negative, ds), rest)
  match s with
  | 'e' :: s => afterMark s
  | 'E' :: s => afterMark s
  | s => .ok (none, s)

/-- A numeral after its sign.  It goes as far as it can; what stops it is for
the caller to judge. -/
def readUnsigned (negative : Bool) : Reader Numeral := fun s => do
  let (whole, s) ← readWhole s
  let (fraction, s) ← readFraction s
  let (exponent, s) ← readExponent s
  return (⟨negative, whole, fraction, exponent⟩, s)

/-- A number after its sign, which has to be in range. -/
def readNumber (negative : Bool) : Reader ReadNumber := fun s => do
  let (numeral, s) ← readUnsigned negative s
  match numeral.value? with
  | some n => return (n, s)
  | none => throw .numberOutOfRange

/-! ### String literals -/

/-- The value of a hexadecimal digit of either case. -/
def hexValue? (c : Char) : Option Nat :=
  if '0' ≤ c ∧ c ≤ '9' then some (c.toNat - '0'.toNat)
  else if 'a' ≤ c ∧ c ≤ 'f' then some (c.toNat - 'a'.toNat + 10)
  else if 'A' ≤ c ∧ c ≤ 'F' then some (c.toNat - 'A'.toNat + 10)
  else none

/-- The length of a text in bytes. -/
def byteCount (s : List Char) : Nat := s.foldr (fun c n => c.utf8Size + n) 0

/-- Four hexadecimal digits.  A text with fewer than four bytes ends in the
middle of them; a text of four bytes or more is judged by its first four, even
if some of them are parts of one character. -/
def readQuad (s : List Char) : Except Problem (Nat × List Char) :=
  match s with
  | a :: b :: c :: d :: rest =>
    match hexValue? a, hexValue? b, hexValue? c, hexValue? d with
    | some a, some b, some c, some d => .ok (((a * 16 + b) * 16 + c) * 16 + d, rest)
    | _, _, _, _ => .error .invalidEscape
  | s => .error (if 4 ≤ byteCount s then .invalidEscape else .endInString)

/-- Whether a code unit is the first half of a surrogate pair. -/
def isHighSurrogate (n : Nat) : Bool := 0xD800 ≤ n && n ≤ 0xDBFF

/-- Whether a code unit is the second half of a surrogate pair. -/
def isLowSurrogate (n : Nat) : Bool := 0xDC00 ≤ n && n ≤ 0xDFFF

/-- The character of a surrogate pair. -/
def pairedCharacter (high low : Nat) : Char :=
  Char.ofNat (0x10000 + (high - 0xD800) * 0x400 + (low - 0xDC00))

/-- The character of a Unicode escape after its `u`.  A code point beyond the
first plane is written as two escapes, and neither half may stand alone; the
first half has to be followed by an escape of the same form at once. -/
def readUnicodeEscape (s : List Char) : Except Problem (Char × List Char) :=
  match readQuad s with
  | .error e => .error e
  | .ok (n, s) =>
    if isLowSurrogate n then .error .loneSurrogate
    else if isHighSurrogate n then
      match s with
      | [] => .error .endInString
      | ['\\'] => .error .endInString
      | '\\' :: 'u' :: s =>
        match readQuad s with
        | .error e => .error e
        | .ok (m, s) =>
          if isLowSurrogate m then .ok (pairedCharacter n m, s) else .error .loneSurrogate
      | _ => .error .unpairedSurrogate
    else .ok (Char.ofNat n, s)

/-- The character that a letter after a backslash stands for, Unicode escapes apart. -/
def simpleEscape? : Char → Option Char
  | '"' => some '"'
  | '\\' => some '\\'
  | '/' => some '/'
  | 'b' => some '\x08'
  | 'f' => some '\x0c'
  | 'n' => some '\n'
  | 'r' => some '\r'
  | 't' => some '\t'
  | _ => none

/-- The character of an escape after its backslash. -/
def readEscape (s : List Char) : Except Problem (Char × List Char) :=
  match s with
  | [] => .error .endInString
  | 'u' :: s => readUnicodeEscape s
  | c :: s =>
    match simpleEscape? c with
    | some c => .ok (c, s)
    | none => .error .invalidEscape

theorem readQuad_length {s rest : List Char} {n : Nat} (h : readQuad s = .ok (n, rest)) :
    rest.length < s.length := by
  unfold readQuad at h
  split at h
  · split at h
    · simp only [Except.ok.injEq, Prod.mk.injEq] at h
      obtain ⟨-, rfl⟩ := h
      simp only [List.length_cons]
      omega
    · simp at h
  · simp at h

theorem readUnicodeEscape_length {s rest : List Char} {c : Char}
    (h : readUnicodeEscape s = .ok (c, rest)) : rest.length < s.length := by
  unfold readUnicodeEscape at h
  split at h
  · simp at h
  · rename_i n r hr
    have hlt := readQuad_length hr
    split at h
    · simp at h
    · split at h
      · split at h
        · simp at h
        · simp at h
        · split at h
          · simp at h
          · rename_i hq
            have := readQuad_length hq
            split at h
            · simp only [Except.ok.injEq, Prod.mk.injEq] at h
              obtain ⟨-, rfl⟩ := h
              simp only [List.length_cons] at hlt
              omega
            · simp at h
        · simp at h
      · simp only [Except.ok.injEq, Prod.mk.injEq] at h
        obtain ⟨-, rfl⟩ := h
        exact hlt

theorem readEscape_length {s rest : List Char} {c : Char} (h : readEscape s = .ok (c, rest)) :
    rest.length < s.length := by
  unfold readEscape at h
  split at h
  · simp at h
  · have := readUnicodeEscape_length h
    simp only [List.length_cons]
    omega
  · split at h
    · simp only [Except.ok.injEq, Prod.mk.injEq] at h
      obtain ⟨-, rfl⟩ := h
      simp
    · simp at h

/-- The inside of a string literal, up to and with the closing quote.  It is the
one reader that recurses on the length of the text and not on its structure,
since an escape takes up several characters; that an escape takes up any is
`readEscape_length`. -/
def stringBody (s : List Char) : Except Problem (List Char × List Char) :=
  match s with
  | [] => .error .endInString
  | '"' :: rest => .ok ([], rest)
  | '\\' :: rest =>
    match h : readEscape rest with
    | .error e => .error e
    | .ok (c, rest') =>
      have := readEscape_length h
      (stringBody rest').map fun (cs, r) => (c :: cs, r)
  | c :: rest =>
    if c.toNat < 0x20 then .error .controlCharacter
    else (stringBody rest).map fun (cs, r) => (c :: cs, r)
termination_by s.length

/-- A string literal after its opening quote. -/
def readString : Reader String := fun s =>
  (stringBody s).map fun (cs, rest) => (String.ofList cs, rest)

/-! ### Lists and objects -/

/-- What stands before an item of a list or a field of an object.  The text is
cut behind the punctuation, so the reader of the item starts at its first
character. -/
inductive Next where
  /-- The closing bracket; the text after it. -/
  | closed (rest : List Char)
  /-- An item, or the key of a field after its opening quote. -/
  | more (rest : List Char)

/-- The punctuation before an item of a list.  Whether it is the first one
decides about the comma: none in front of the first, one in front of every
other, and none in front of the closing bracket. -/
def nextItem (first : Bool) (s : List Char) : Except Problem Next :=
  match skipBlanks s with
  | [] => .error .endInList
  | ']' :: rest => .ok (.closed rest)
  | c :: rest =>
    if first then .ok (.more (c :: rest))
    else if c == ',' then
      match skipBlanks rest with
      | [] => .error .endInValue
      | ']' :: _ => .error .trailingComma
      | rest => .ok (.more rest)
    else .error .expectedListCommaOrEnd

/-- The punctuation before a field of an object, with the opening quote of its key. -/
def nextKey (first : Bool) (s : List Char) : Except Problem Next :=
  match skipBlanks s with
  | [] => .error .endInObject
  | '\x7d' :: rest => .ok (.closed rest)
  | c :: rest =>
    if first then
      if c == '"' then .ok (.more rest) else .error .keyMustBeString
    else if c == ',' then
      match skipBlanks rest with
      | [] => .error .endInValue
      | '"' :: rest => .ok (.more rest)
      | '\x7d' :: _ => .error .trailingComma
      | _ => .error .keyMustBeString
    else .error .expectedObjectCommaOrEnd

/-- The colon after a key. -/
def readColon (s : List Char) : Except Problem (List Char) :=
  match skipBlanks s with
  | [] => .error .endInObject
  | ':' :: rest => .ok rest
  | _ => .error .expectedColon

/-- The end of a list that has had all its items.  A comma there is a fault of
its own only in front of a bracket; in front of anything else it is one item too
many. -/
def closeList (s : List Char) : Except Problem (List Char) :=
  match skipBlanks s with
  | [] => .error .endInList
  | ']' :: rest => .ok rest
  | ',' :: rest =>
    match skipBlanks rest with
    | ']' :: _ => .error .trailingComma
    | _ => .error .trailingCharacters
  | _ => .error .trailingCharacters

/-- At most `bound` items of a list and its closing bracket.  The bound is for
the recursion alone, which the reader of the items does not make structural; a
bound of the length of the text is never used up. -/
def itemsWithin {α : Type} (item : Reader α) : Nat → Bool → Reader (List α)
  | 0, _, _ => .error .endInList
  | bound + 1, first, s =>
    match nextItem first s with
    | .error e => .error e
    | .ok (.closed rest) => .ok ([], rest)
    | .ok (.more s) =>
      match item s with
      | .error e => .error e
      | .ok (a, s) => (itemsWithin item bound false s).map fun (as, rest) => (a :: as, rest)

/-- The items of a list after its opening bracket, and its closing bracket. -/
def items {α : Type} (item : Reader α) : Reader (List α) := fun s =>
  itemsWithin item (s.length + 1) true s

/-- At most `bound` fields of an object and its closing brace.  A field is read
from behind its key into what has been collected so far, so a reader of records
sees which fields have come before and can refuse a repeated one. -/
def fieldsWithin {σ : Type} (field : σ → String → Reader σ) : Nat → Bool → σ → Reader σ
  | 0, _, _, _ => .error .endInObject
  | bound + 1, first, state, s =>
    match nextKey first s with
    | .error e => .error e
    | .ok (.closed rest) => .ok (state, rest)
    | .ok (.more s) =>
      match readString s with
      | .error e => .error e
      | .ok (key, s) =>
        match field state key s with
        | .error e => .error e
        | .ok (state, s) => fieldsWithin field bound false state s

/-- The fields of an object after its opening brace, and its closing brace. -/
def fields {σ : Type} (field : σ → String → Reader σ) (start : σ) : Reader σ := fun s =>
  fieldsWithin field (s.length + 1) true start s

end StraightLine.Saved
