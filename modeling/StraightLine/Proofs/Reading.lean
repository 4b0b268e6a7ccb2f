import StraightLine.Proofs.Numerals
import StraightLine.Proofs.Skipping

/-!
# The readers of the parts

The readers of literals, names, objects with one field and records take exactly the values that have
the form of what they read.

## Main statements

* `reads_readLiteral`, `reads_readName`, `reads_readOperator` — the smallest parts.
* `reads_readTagged` — a value that is written as a bare name or as an object with one field.
* `reads_readRecord` — a record in its two spellings.
* `Reads.readField_map_eq_ok_iff`, `skipUnknown_map_eq_ok_iff` — a field with its colon.

## Design notes

* **The fields of a record are counted.**  While the members of an object are read in their order, a
  field is either still to come or has been read; `Filled` says which values of the members to come
  take it from one state to the other.
-/

namespace StraightLine.Saved

variable {s s₁ rest : List Char}

/-! ### Literals -/

/-- A number behind its sign, as what its numeral stands for.  Saved programs
and JSON values make different things of a numeral; what they have in common is
read by this function. -/
def readNumeral {α : Type} (value? : Numeral → Option α) (negative : Bool) : Reader α := fun s => do
  let (n, s) ← readUnsigned negative s
  match value? n with
  | some a => return (a, s)
  | none => throw .numberOutOfRange

theorem readNumeral_eq_ok_iff {α : Type} (value? : Numeral → Option α) {negative : Bool} {a : α}
    (hn : Stops rest) :
    readNumeral value? negative s = .ok (a, rest) ↔
      ∃ n : Numeral, n.negative = negative ∧ Unsigned n s rest ∧ value? n = some a := by
  constructor
  · intro h
    obtain ⟨⟨n, s₁⟩, hu, h⟩ := Except.bind_eq_ok_iff.1 h
    obtain ⟨hneg, hu⟩ := unsigned_of_readUnsigned hu
    cases hv : value? n with
    | none =>
      simp only [hv] at h
      cases h
    | some a' =>
      simp only [hv] at h
      cases h
      exact ⟨n, hneg, hu, hv⟩
  · rintro ⟨n, rfl, hu, hv⟩
    simp only [readNumeral, hu.readUnsigned_eq hn, bind, Except.bind, hv]
    rfl

theorem readNumber_eq_ok_iff {negative : Bool} {m : ReadNumber} (hn : Stops rest) :
    readNumber negative s = .ok (m, rest) ↔
      ∃ n : Numeral, n.negative = negative ∧ Unsigned n s rest ∧ n.value? = some m := by
  have hread : readNumber negative s = readNumeral Numeral.value? negative s := by
    rw [readNumber, readNumeral]
    refine congrArg (readUnsigned negative s >>= ·) (funext fun ⟨n, _⟩ => ?_)
    dsimp only
    cases n.value? <;> rfl
  rw [hread]
  exact readNumeral_eq_ok_iff Numeral.value? hn

/-- What is read and forgotten gives no number. -/
theorem map_none_ne_some {α β : Type} {x : Except Problem (α × List Char)} {b : β} :
    x.map (fun p => ((none : Option β), p.2)) ≠ .ok (some b, rest) := by
  cases x <;> simp [Except.map]

/-- Of all values only numbers give a number. -/
theorem readAny_eq_some_iff {levels : Nat} {m : ReadNumber} (hn : Stops rest) :
    readAny levels s = .ok (some m, rest) ↔
      ∃ n, Spells (.number n) s rest ∧ n.value? = some m := by
  constructor
  · intro h
    have hb := blanks_skipBlanks s
    unfold readAny at h
    split at h
    · cases h
    -- A sign or a digit begins a number; all other values leave no number behind.
    case h_6 s₁ hs =>
      obtain ⟨⟨m', r⟩, hr, heq⟩ := Except.map_eq_ok_iff.1 h
      obtain ⟨rfl, rfl⟩ := by simpa using heq
      obtain ⟨n, hneg, hu, hv⟩ := (readNumber_eq_ok_iff hn).1 hr
      exact ⟨n, .number (hs ▸ hb) (.minus hneg hu), hv⟩
    case h_9 hs =>
      split at h
      · obtain ⟨⟨m', r⟩, hr, heq⟩ := Except.map_eq_ok_iff.1 h
        obtain ⟨rfl, rfl⟩ := by simpa using heq
        obtain ⟨n, hneg, hu, hv⟩ := (readNumber_eq_ok_iff hn).1 hr
        exact ⟨n, .number (hs ▸ hb) (.plain hneg hu), hv⟩
      · cases h
    case h_7 =>
      split at h
      · cases h
      · exact absurd h map_none_ne_some
    case h_8 =>
      split at h
      · cases h
      · exact absurd h map_none_ne_some
    all_goals exact absurd h map_none_ne_some
  · rintro ⟨n, hs, hv⟩
    cases hs with
    | number hb hnum =>
    unfold readAny
    cases hnum with
    | minus hneg hu =>
      have hr := (readNumber_eq_ok_iff hn).2 ⟨n, hneg, hu, hv⟩
      simp only [(skipBlanks_eq_cons_iff rfl).2 hb, hr]
      rfl
    | plain hneg hu =>
      have hr := (readNumber_eq_ok_iff hn).2 ⟨n, hneg, hu, hv⟩
      -- The first digit is not a blank and begins no value of another kind.
      obtain ⟨hd, -⟩ := hu
      obtain ⟨c, t, rfl, hc⟩ := hd.head
      rw [hb.skipBlanks_eq, skipBlanks_cons (isBlank_of_digit hc)]
      split
      case h_9 heq =>
        obtain ⟨rfl, rfl⟩ := List.cons.inj heq
        rw [if_pos hc, hr]
        rfl
      case h_1 heq => cases heq
      all_goals
        rename_i heq
        obtain ⟨rfl, rfl⟩ := List.cons.inj heq
        exact absurd hc (by decide)

theorem reads_readLiteral (levels : Nat) : Reads (readLiteral levels) LiteralOf := by
  intro s value rest hn
  constructor
  · intro h
    unfold readLiteral at h
    split at h
    · cases h
    · rename_i m _ ha
      obtain ⟨rfl, rfl⟩ := by simpa using h
      obtain ⟨n, hs, hv⟩ := (readAny_eq_some_iff hn).1 ha
      exact ⟨_, hs, toValue_value?_eq_some_iff.1 (by rw [hv, Option.map_some])⟩
    · cases h
  · rintro ⟨j, hs, hl⟩
    obtain ⟨n, rfl⟩ : ∃ n, j = .number n := by cases hl <;> exact ⟨_, rfl⟩
    obtain ⟨m, hv, rfl⟩ := Option.map_eq_some_iff.1 (toValue_value?_eq_some_iff.2 hl)
    rw [readLiteral, (readAny_eq_some_iff hn).2 ⟨n, hs, hv⟩]

/-! ### Names -/

theorem readStringValue_eq_ok_iff {name : String} :
    readStringValue s = .ok (name, rest) ↔
      ∃ ps, Spells (.string ps) s rest ∧ text? ps = some name := by
  have hb := blanks_skipBlanks s
  constructor
  · intro h
    unfold readStringValue at h
    split at h
    · cases h
    · rename_i hs
      obtain ⟨ps, hp, hname⟩ := readString_eq_ok_iff.1 h
      exact ⟨ps, .string (hs ▸ hb) hp, hname⟩
    · cases h
  · rintro ⟨ps, hs, hname⟩
    cases hs with
    | string hq hp =>
      simp only [readStringValue, (skipBlanks_eq_cons_iff rfl).2 hq,
        readString_eq_ok_iff.2 ⟨ps, hp, hname⟩]

theorem reads_readName : Reads readName NameOf := by
  intro s name rest _
  constructor
  · intro h
    unfold readName at h
    split at h
    · cases h
    · rename_i name' rest' hr
      split at h
      · cases h
      · rename_i hne
        obtain ⟨rfl, rfl⟩ := by simpa using h
        obtain ⟨ps, hs, hname⟩ := readStringValue_eq_ok_iff.1 hr
        exact ⟨_, hs, .string hname (by simpa using hne)⟩
  · rintro ⟨_, hs, ⟨hname, hne⟩⟩
    rw [readName, readStringValue_eq_ok_iff.2 ⟨_, hs, hname⟩]
    simpa using hne

theorem reads_readNull : Reads readNull fun j _ => j = .null := by
  intro s u rest _
  have hb := blanks_skipBlanks s
  constructor
  · intro h
    unfold readNull at h
    split at h
    · cases h
    · rename_i hs
      rw [hs, readWord_eq_ok_iff.1 h] at hb
      exact ⟨_, .null hb, rfl⟩
    · cases h
  · rintro ⟨_, hs, rfl⟩
    cases hs with
    | null hb => simp [readNull, (skipBlanks_eq_cons_iff rfl).2 hb, readWord]

/-! ### Objects with one field -/

/-- An object with one member as a text.  The reader of such an object does not
use the loop over members, so it needs this spelled out. -/
theorem spells_singleton_iff {key : List Piece} {j : Tree} :
    Spells (.object [(key, j)]) s rest ↔
      ∃ s₁ s₂ s₃ s₄ s₅, Blanks s ('\x7b' :: s₁) ∧ Blanks s₁ ('"' :: s₂) ∧ Pieces key s₂ s₃ ∧
        Blanks s₃ (':' :: s₄) ∧ Spells j s₄ s₅ ∧ Blanks s₅ ('\x7d' :: rest) := by
  constructor
  · intro h
    cases h with
    | object hb hl =>
    cases hl with
    | first hm hl =>
    cases hm with
    | keyed hq hp hc hj =>
    cases hl with
    | closed he => exact ⟨_, _, _, _, _, hb, hq, hp, hc, hj, he⟩
  · rintro ⟨s₁, s₂, s₃, s₄, s₅, hb, hq, hp, hc, hj, he⟩
    exact .object hb (.first (.keyed hq hp hc hj) (.closed he))

theorem closeVariant_eq_ok_iff : closeVariant s = .ok rest ↔ Blanks s ('\x7d' :: rest) := by
  rw [← skipBlanks_eq_cons_iff rfl, closeVariant]
  split <;> simp_all

theorem readVariant_eq_ok_iff {known : List String} {name : String} :
    readVariant known s = .ok (name, rest) ↔
      name ∈ known ∧ ∃ s₁ s₂ key, Blanks s ('"' :: s₁) ∧ Pieces key s₁ s₂ ∧ text? key = some name ∧
        Blanks s₂ (':' :: rest) := by
  have hb := blanks_skipBlanks s
  constructor
  · intro h
    unfold readVariant at h
    split at h
    · cases h
    · rename_i hs
      split at h
      · cases h
      · rename_i hk
        split at h
        · rename_i hmem
          obtain ⟨r, hc, heq⟩ := Except.map_eq_ok_iff.1 h
          obtain ⟨rfl, rfl⟩ := by simpa using heq
          obtain ⟨key, hp, hname⟩ := readString_eq_ok_iff.1 hk
          exact ⟨by simpa using hmem, _, _, key, hs ▸ hb, hp, hname, readColon_eq_ok_iff.1 hc⟩
        · cases h
    · cases h
    · cases h
  · rintro ⟨hmem, s₁, s₂, key, hq, hp, hname, hc⟩
    simp only [readVariant, (skipBlanks_eq_cons_iff rfl).2 hq,
      readString_eq_ok_iff.2 ⟨key, hp, hname⟩, List.contains_iff_mem.2 hmem, if_true,
      readColon_eq_ok_iff.2 hc]
    rfl

/-- A tagged value is its bare name, or what stands under its name in an object
with one field.  The reader of the content is looked for by name, so the
hypothesis is asked for each known name, and only where there are levels left. -/
theorem reads_readTagged {α : Type} {known : List String} {bare : String → Except Problem α}
    {content : Option (String → Reader α)} {Content : String → Tree → α → Prop}
    (hc : ∀ c ∈ content, ∀ name ∈ known, Reads (c name) (Content name)) :
    Reads (readTagged known bare content) fun j a =>
      (∃ ps, ∃ name ∈ known, j = .string ps ∧ text? ps = some name ∧ bare name = .ok a) ∨
      (content.isSome ∧ ∃ name ∈ known, ∃ v, OneField name j v ∧ Content name v a) := by
  intro s a rest _
  have hb := blanks_skipBlanks s
  constructor
  · intro h
    unfold readTagged at h
    split at h
    · cases h
    · -- The bare name of a kind.
      rename_i hs
      split at h
      · cases h
      · rename_i name _ hk
        split at h
        · rename_i hmem
          obtain ⟨r, hbare, heq⟩ := Except.map_eq_ok_iff.1 h
          obtain ⟨rfl, rfl⟩ := by simpa using heq
          obtain ⟨ps, hp, hname⟩ := readString_eq_ok_iff.1 hk
          exact ⟨_, .string (hs ▸ hb) hp, .inl ⟨ps, name, by simpa using hmem, rfl, hname, hbare⟩⟩
        · cases h
    · -- An object, which has to close behind its one field.
      rename_i hs
      split at h
      · cases h
      · rename_i c
        split at h
        · cases h
        · rename_i name _ hk
          split at h
          · cases h
          · rename_i hv
            obtain ⟨r, hclose, heq⟩ := Except.map_eq_ok_iff.1 h
            obtain ⟨rfl, rfl⟩ := by simpa using heq
            obtain ⟨hmem, s₁, s₂, key, hq, hp, hname, hcolon⟩ := readVariant_eq_ok_iff.1 hk
            have he := closeVariant_eq_ok_iff.1 hclose
            obtain ⟨j, hj, hcontent⟩ := (hc c rfl name hmem (he.stops (by decide))).1 hv
            exact ⟨_, spells_singleton_iff.2 ⟨_, _, _, _, _, hs ▸ hb, hq, hp, hcolon, hj, he⟩,
              .inr ⟨rfl, name, hmem, j, .object hname, hcontent⟩⟩
    · cases h
  · rintro ⟨j, hj, ⟨ps, name, hmem, rfl, hname, hbare⟩ | ⟨hsome, name, hmem, v, ⟨hkey⟩, hcontent⟩⟩
    · cases hj with
      | string hq hp =>
        simp only [readTagged, (skipBlanks_eq_cons_iff rfl).2 hq,
          readString_eq_ok_iff.2 ⟨ps, hp, hname⟩, List.contains_iff_mem.2 hmem, if_true, hbare]
        rfl
    · obtain ⟨c, rfl⟩ := Option.isSome_iff_exists.1 hsome
      obtain ⟨s₁, s₂, s₃, s₄, s₅, hbrace, hq, hp, hcolon, hv, he⟩ := spells_singleton_iff.1 hj
      have hr := (hc c rfl name hmem (he.stops (by decide))).2 ⟨v, hv, hcontent⟩
      simp only [readTagged, (skipBlanks_eq_cons_iff rfl).2 hbrace,
        readVariant_eq_ok_iff.2 ⟨hmem, _, _, _, hq, hp, hkey, hcolon⟩, hr,
        closeVariant_eq_ok_iff.2 he]
      rfl

theorem Reads.congr {α : Type} {reader : Reader α} {Result Result' : Tree → α → Prop}
    (h : Reads reader Result) (hiff : ∀ j a, Result j a ↔ Result' j a) : Reads reader Result' := by
  intro s a rest hn
  rw [h hn]
  exact exists_congr fun j => and_congr_right fun _ => hiff j a

/-- Where no bare name is allowed, an object with one field is left. -/
theorem reads_readTagged_object {α : Type} {known : List String} {p : Problem}
    {content : Option (String → Reader α)} {Content : String → Tree → α → Prop}
    (hc : ∀ c ∈ content, ∀ name ∈ known, Reads (c name) (Content name)) :
    Reads (readTagged known (fun _ => .error p) content) fun j a =>
      content.isSome ∧ ∃ name ∈ known, ∃ v, OneField name j v ∧ Content name v a :=
  (reads_readTagged hc).congr fun j a => by simp

/-- Where no level is left either, nothing is read. -/
theorem reads_readTagged_none {α : Type} {known : List String} {p : Problem} :
    Reads (readTagged known (fun _ => .error p) none : Reader α) fun _ _ => False := by
  have hc : ∀ c ∈ (none : Option (String → Reader α)), ∀ name ∈ known,
      Reads (c name) fun _ _ => False := by
    rintro c ⟨⟩
  exact (reads_readTagged_object hc).congr fun j a => by simp

theorem mem_operatorNames (op : Operator) : op.name ∈ operatorNames :=
  List.mem_map_of_mem (Operator.mem_all op)

/-- The operator with a name. -/
def namedOperator (name : String) : Except Problem Operator :=
  match Operator.ofName? name with
  | some op => .ok op
  | none => .error (.unknownVariant name operatorNames)

theorem namedOperator_eq_ok_iff {name : String} {op : Operator} :
    namedOperator name = .ok op ↔ op.name = name := by
  constructor
  · intro h
    unfold namedOperator at h
    split at h
    · rename_i hop
      cases h
      exact (Operator.eq_name_of_ofName? hop).symm
    · cases h
  · rintro rfl
    rw [namedOperator, Operator.ofName?_name]

/-- The operator with a name that `null` stands under. -/
def readNamedOperator (name : String) : Reader Operator := fun s =>
  match readNull s with
  | .error e => .error e
  | .ok (_, s) => (namedOperator name).map fun op => (op, s)

theorem reads_readNamedOperator (name : String) :
    Reads (readNamedOperator name) fun j op => j = .null ∧ op.name = name := by
  intro s op rest hn
  constructor
  · intro h
    unfold readNamedOperator at h
    split at h
    · cases h
    · rename_i hnull
      obtain ⟨op', hop, heq⟩ := Except.map_eq_ok_iff.1 h
      obtain ⟨rfl, rfl⟩ := by simpa using heq
      obtain ⟨j, hj, rfl⟩ := (reads_readNull hn).1 hnull
      exact ⟨_, hj, rfl, namedOperator_eq_ok_iff.1 hop⟩
  · rintro ⟨j, hj, rfl, hop⟩
    have hnull : readNull s = .ok ((), rest) := (reads_readNull hn).2 ⟨_, hj, rfl⟩
    rw [readNamedOperator, hnull, namedOperator_eq_ok_iff.2 hop]
    rfl

theorem readOperator_eq (levels : Nat) :
    readOperator levels =
      readTagged operatorNames namedOperator
        (if levels = 0 then none else some readNamedOperator) :=
  rfl

theorem reads_readOperator (levels : Nat) : Reads (readOperator levels) (OperatorOf levels) := by
  intro s op rest hn
  have hcontent : ∀ c ∈ (if levels = 0 then none else some readNamedOperator),
      ∀ name ∈ operatorNames, Reads (c name) fun j op => j = .null ∧ op.name = name := by
    rintro c hc name -
    split at hc
    · cases hc
    · cases hc
      exact reads_readNamedOperator name
  rw [readOperator_eq, reads_readTagged hcontent hn]
  refine exists_congr fun j => and_congr_right fun _ => ?_
  constructor
  · rintro (⟨ps, name, -, rfl, hname, hbare⟩ | ⟨hsome, name, -, v, hfield, rfl, rfl⟩)
    · obtain rfl := namedOperator_eq_ok_iff.1 hbare
      exact .bare hname
    · cases levels with
      | zero => cases hsome
      | succ levels => exact .object hfield
  · intro h
    cases h with
    | bare hname =>
      exact .inl ⟨_, _, mem_operatorNames op, rfl, hname, namedOperator_eq_ok_iff.2 rfl⟩
    | object hfield => exact .inr ⟨rfl, _, mem_operatorNames op, _, hfield, rfl, rfl⟩

/-! ### Records -/

section Items

variable {α : Type} {value : Reader α} {Result : Tree → α → Prop} {a : α} (shape : Shape)
  (size : Nat)

/-- The first item of a record stands right behind the bracket. -/
theorem Reads.readItem_first_eq_ok_iff (h : Reads value Result) (hn : Stops rest) :
    readItem shape size 0 value s = .ok (a, rest) ↔ ∃ j, Spells j s rest ∧ Result j a := by
  constructor
  · intro hr
    unfold readItem at hr
    split at hr
    · cases hr
    · cases hr
    · rename_i hmore
      obtain ⟨rfl, -⟩ := nextItem_first_eq_more_iff.1 hmore
      exact h.spells_of_skipBlanks hn hr
  · rintro ⟨j, hj, ha⟩
    have hnext : nextItem (0 == 0) s = .ok (.more (skipBlanks s)) := hj.nextItem_eq
    simp only [readItem, hnext]
    exact (h hn).2 ⟨j, spells_skipBlanks_iff.2 hj, ha⟩

/-- A further item of a record stands behind its comma. -/
theorem Reads.readItem_next_eq_ok_iff (length : Nat) (h : Reads value Result) (hn : Stops rest) :
    readItem shape size (length + 1) value s = .ok (a, rest) ↔
      ∃ s₁ j, Blanks s (',' :: s₁) ∧ Spells j s₁ rest ∧ Result j a := by
  constructor
  · intro hr
    unfold readItem at hr
    split at hr
    · cases hr
    · cases hr
    · rename_i hmore
      obtain ⟨s₁, hb, hmore⟩ := nextItem_next_eq_more_iff.1 hmore
      obtain ⟨rfl, -⟩ := nextItem_first_eq_more_iff.1 hmore
      obtain ⟨j, hj, ha⟩ := h.spells_of_skipBlanks hn hr
      exact ⟨s₁, j, hb, hj, ha⟩
  · rintro ⟨s₁, j, hb, hj, ha⟩
    have hnext : nextItem (length + 1 == 0) s = .ok (.more (skipBlanks s₁)) :=
      nextItem_next_eq_more_iff.2 ⟨s₁, hb, hj.nextItem_eq⟩
    simp only [readItem, hnext]
    exact (h hn).2 ⟨j, spells_skipBlanks_iff.2 hj, ha⟩

end Items

/-- A record is read as what its two spellings have in common.  What `RecordOf`
says of arrays and of objects is different, and each reader is shown to do its
part; behind it only the values of the fields are left. -/
theorem reads_readRecord {α : Type} {shape : Shape} {fromArray fromObject : Reader α}
    {names : List String} {Fields : List Tree → α → Prop}
    (harray : ∀ {s a rest}, fromArray s = .ok (a, rest) ↔ ∃ js values,
      Listed Spells ']' true js s rest ∧ RecordOf names (.array js) values ∧ Fields values a)
    (hobject : ∀ {s a rest}, fromObject s = .ok (a, rest) ↔ ∃ ms values,
      Listed (Member Spells) '\x7d' true ms s rest ∧ RecordOf names (.object ms) values ∧
        Fields values a) :
    Reads (readRecord shape (some (fromArray, fromObject))) fun j a =>
      ∃ values, RecordOf names j values ∧ Fields values a := by
  intro s a rest _
  have hb := blanks_skipBlanks s
  constructor
  · intro h
    unfold readRecord at h
    split at h
    · cases h
    · rename_i hs
      obtain ⟨js, values, hl, hrec, hf⟩ := harray.1 h
      exact ⟨_, .array (hs ▸ hb) hl, values, hrec, hf⟩
    · rename_i hs
      obtain ⟨ms, values, hl, hrec, hf⟩ := hobject.1 h
      exact ⟨_, .object (hs ▸ hb) hl, values, hrec, hf⟩
    · cases h
  · rintro ⟨j, hj, values, hrec, hf⟩
    cases hj with
    | array hb hl =>
      simp only [readRecord, (skipBlanks_eq_cons_iff rfl).2 hb,
        harray.2 ⟨_, values, hl, hrec, hf⟩]
    | object hb hl =>
      simp only [readRecord, (skipBlanks_eq_cons_iff rfl).2 hb,
        hobject.2 ⟨_, values, hl, hrec, hf⟩]
    | null | yes | no | number | string => cases hrec

theorem readRecord_none_ne_ok {α : Type} {shape : Shape} {a : α} :
    readRecord shape none s ≠ .ok (a, rest) := by
  intro h
  unfold readRecord at h
  split at h <;> cases h

/-! ### Fields of a record -/

/-- A field that may have been found before: it is found once, in what is still
to come or in what has already been read.

It is the invariant of the loop over members for a single field.  With a value
that was found the list of those to come has to be empty, which is how a field
that is repeated is refused. -/
inductive Filled {α : Type} (Result : Tree → α → Prop) :
    Option α → List Tree → Option α → Prop where
  | kept (found : Option α) : Filled Result found [] found
  | read {j : Tree} {a : α} : Result j a → Filled Result none [j] (some a)

theorem filled_none_some_iff {α : Type} {Result : Tree → α → Prop} {js : List Tree} {a : α} :
    Filled Result none js (some a) ↔ ∃ j, js = [j] ∧ Result j a := by
  constructor
  · rintro ⟨h⟩
    exact ⟨_, rfl, ‹_›⟩
  · rintro ⟨j, rfl, h⟩
    exact .read h

theorem filled_cons_iff {α : Type} {Result : Tree → α → Prop} {found found' : Option α} {j : Tree}
    {js : List Tree} :
    Filled Result found (j :: js) found' ↔
      found = none ∧ ∃ a, Result j a ∧ Filled Result (some a) js found' := by
  constructor
  · intro h
    cases h with
    | read h => exact ⟨rfl, _, h, .kept _⟩
  · rintro ⟨rfl, a, ha, h⟩
    cases h with
    | kept => exact .read ha

theorem valuesOf_cons {name field : String} {key : List Piece} {j : Tree}
    {ms : List (List Piece × Tree)} (h : text? key = some name) :
    valuesOf field ((key, j) :: ms) =
      if name = field then j :: valuesOf field ms else valuesOf field ms := by
  simp only [valuesOf, List.filterMap_cons, h, Option.some.injEq]
  split <;> simp_all

/-- The first member leads to a state from which the others go on.  The name of
the key is given, so that the step can be computed. -/
theorem folds_cons_iff {σ : Type} {Result : σ → String → Tree → σ → Prop} {state state' : σ}
    {key : List Piece} {name : String} {j : Tree} {ms : List (List Piece × Tree)}
    (h : text? key = some name) :
    Folds Result state ((key, j) :: ms) state' ↔
      ∃ state₁, Result state name j state₁ ∧ Folds Result state₁ ms state' := by
  constructor
  · intro hf
    cases hf with
    | cons hkey hr hf =>
      obtain rfl := Option.some.inj (h.symm.trans hkey)
      exact ⟨_, hr, hf⟩
  · rintro ⟨state₁, hr, hf⟩
    exact .cons h hr hf

theorem not_isSome_text? {key : List Piece} {j : Tree} {ms : List (List Piece × Tree)}
    (h : text? key = none) : ¬ ∀ m ∈ (key, j) :: ms, (text? m.1).isSome := by
  intro hall
  have := hall (key, j) (List.mem_cons_self ..)
  rw [h] at this
  cases this

theorem isSome_text?_of_folds {σ : Type} {Result : σ → String → Tree → σ → Prop}
    {state state' : σ} {ms : List (List Piece × Tree)} (h : Folds Result state ms state') :
    ∀ m ∈ ms, (text? m.1).isSome := by
  induction h with
  | nil => simp
  | cons hkey _ _ ih =>
    intro m hm
    obtain rfl | hm := List.mem_cons.1 hm
    · rw [hkey]
      rfl
    · exact ih m hm

section Field

variable {α σ : Type} {value : Reader α} {Result : Tree → α → Prop} {name : String}
  {seen : Option α}

theorem Reads.readField_eq_ok_iff {a : α} (h : Reads value Result) (hn : Stops rest) :
    readField name seen value s = .ok (a, rest) ↔
      ∃ s₁ j, Blanks s (':' :: s₁) ∧ Spells j s₁ rest ∧ seen = none ∧ Result j a := by
  constructor
  · intro hr
    unfold readField at hr
    split at hr
    · cases hr
    · split at hr
      · cases hr
      · rename_i hc
        obtain ⟨j, hj, ha⟩ := (h hn).1 hr
        exact ⟨_, j, readColon_eq_ok_iff.1 hc, hj, rfl, ha⟩
  · rintro ⟨s₁, j, hc, hj, rfl, ha⟩
    simp only [readField, readColon_eq_ok_iff.2 hc, (h hn).2 ⟨j, hj, ha⟩]

/-- What is read under a key goes into the state. -/
theorem Reads.readField_map_eq_ok_iff {state : σ} (h : Reads value Result) (hn : Stops rest)
    (put : α → σ) :
    ((readField name seen value s).map fun (a, s) => (put a, s)) = .ok (state, rest) ↔
      ∃ s₁ j, Blanks s (':' :: s₁) ∧ Spells j s₁ rest ∧
        seen = none ∧ ∃ a, Result j a ∧ state = put a := by
  rw [Except.map_eq_ok_iff]
  constructor
  · rintro ⟨⟨a, r⟩, hr, heq⟩
    obtain ⟨rfl, rfl⟩ := by simpa using heq
    obtain ⟨s₁, j, hc, hj, hseen, ha⟩ := (h.readField_eq_ok_iff hn).1 hr
    exact ⟨s₁, j, hc, hj, hseen, a, ha, rfl⟩
  · rintro ⟨s₁, j, hc, hj, hseen, a, ha, rfl⟩
    exact ⟨(a, rest), (h.readField_eq_ok_iff hn).2 ⟨s₁, j, hc, hj, hseen, ha⟩, rfl⟩

/-- What stands under an unknown key may be any value, and leaves the state as
it was.  It is passed over and not read, so numbers of any size and strings of
any kind may stand there. -/
theorem skipUnknown_map_eq_ok_iff {found state : σ} (hn : Stops rest) :
    ((skipUnknown s).map fun r => (found, r)) = .ok (state, rest) ↔
      ∃ s₁ j, Blanks s (':' :: s₁) ∧ Spells j s₁ rest ∧ state = found := by
  rw [Except.map_eq_ok_iff]
  constructor
  · rintro ⟨r, hr, heq⟩
    obtain ⟨rfl, rfl⟩ := by simpa using heq
    unfold skipUnknown at hr
    split at hr
    · cases hr
    · rename_i hc
      obtain ⟨j, hj⟩ := (skipValue_eq_ok_iff hn).1 hr
      exact ⟨_, j, readColon_eq_ok_iff.1 hc, hj, rfl⟩
  · rintro ⟨s₁, j, hc, hj, rfl⟩
    refine ⟨rest, ?_, rfl⟩
    simp only [skipUnknown, readColon_eq_ok_iff.2 hc]
    exact (skipValue_eq_ok_iff hn).2 ⟨j, hj⟩

end Field

end StraightLine.Saved
