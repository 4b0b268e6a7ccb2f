import StraightLine.Proofs.Acceptance

/-!
# Values on which a reader fails

A reader passes on the problem of a part.  Where one part of a value is not read, and what stands in
front of it is, the whole value is not read, with the same problem.

## Main definitions

* `Fails` — a reader ends with a problem wherever a value is spelled.
* `FailsField` — the same for the reader of the fields of an object, from a state on.

## Main statements

* `fails_readLiteral` — numbers out of range.
* `Fails.readTagged`, `fails_readRecord`, `Fails.readList` — objects with one field, records and
  lists.
* `fails_readBinary_left`, `fails_readBinary_right`, `fails_readAssignment` — the records of
  programs, from their operands and their value.

## Design notes

* **The parts behind the first problem have to be read too,** as far as the statements go.  In an
  object the fields may stand in any order, so each of them can be in front of the one that fails.
-/

namespace StraightLine.Saved

variable {s s₁ rest : List Char} {e : Problem}

/-- The reader ends with the problem on every text that spells the value,
wherever the text after the value stops a number.  It is the counterpart of
`Reads` for a single value, and names the problem that `Reads` leaves open. -/
def Fails {α : Type} (reader : Reader α) (j : Tree) (e : Problem) : Prop :=
  ∀ ⦃s rest⦄, Stops rest → Spells j s rest → reader s = .error e

/-! ### Literals -/

theorem Unsigned.readNumber_eq_error {n : Numeral} (h : Unsigned n s rest) (hn : Stops rest)
    (hv : n.value? = none) : readNumber n.negative s = .error .numberOutOfRange := by
  simp only [readNumber, h.readUnsigned_eq hn, bind, Except.bind, hv]
  rfl

theorem fails_readAny {n : Numeral} (hv : n.value? = none) (levels : Nat) :
    Fails (readAny levels) (.number n) .numberOutOfRange := by
  intro s rest hn hs
  cases hs with
  | number hb hnum =>
  unfold readAny
  cases hnum with
  | minus hneg hu =>
    have hr := hu.readNumber_eq_error hn hv
    rw [hneg] at hr
    simp only [(skipBlanks_eq_cons_iff rfl).2 hb, hr]
    rfl
  | plain hneg hu =>
    have hr := hu.readNumber_eq_error hn hv
    rw [hneg] at hr
    obtain ⟨hd, -⟩ := hu
    obtain ⟨c, t, rfl, hc⟩ := hd.head
    rw [hb.skipBlanks_eq, skipBlanks_cons (isBlank_of_digit hc)]
    split
    case h_9 heq =>
      obtain ⟨rfl, rfl⟩ := List.cons.inj heq
      rw [if_pos hc, hr]
      rfl
    case h_1 heq => cases heq
    all_goals
      rename_i heq
      obtain ⟨rfl, rfl⟩ := List.cons.inj heq
      exact absurd hc (by decide)

theorem fails_readLiteral {n : Numeral} (hv : n.value? = none) (levels : Nat) :
    Fails (readLiteral levels) (.number n) .numberOutOfRange := by
  intro s rest hn hs
  simp only [readLiteral, fails_readAny hv levels hn hs]

theorem Fails.map {α β : Type} {reader : Reader α} {j : Tree} (h : Fails reader j e) (f : α → β) :
    Fails (fun s => (reader s).map fun (a, s) => (f a, s)) j e := by
  intro s rest hn hj
  simp only [h hn hj]
  rfl

/-! ### Objects with one field -/

theorem Fails.readTagged {α : Type} {known : List String} {bare : String → Except Problem α}
    {content : String → Reader α} {kind : String} {j v : Tree} (h : Fails (content kind) v e)
    (hf : OneField kind j v) (hmem : kind ∈ known) :
    Fails (readTagged known bare (some content)) j e := by
  intro s rest _ hj
  cases hf with
  | object hkey =>
    obtain ⟨s₁, s₂, s₃, s₄, s₅, hb, hq, hp, hc, hv, he⟩ := spells_singleton_iff.1 hj
    have hvariant := readVariant_eq_ok_iff.2 ⟨hmem, _, _, _, hq, hp, hkey, hc⟩
    simp only [Saved.readTagged, (skipBlanks_eq_cons_iff rfl).2 hb, hvariant,
      h (he.stops (by decide)) hv]

/-! ### Lists -/

section Lists

variable {α : Type} {item : Reader α} {Result : Tree → α → Prop} {as : List α}
  {js₁ js₂ : List Tree} {j : Tree} {first : Bool} {bound : Nat}

/-- A list is read up to the first item that is not.  The items before it are
read with their results, those behind it are only spelled. -/
theorem Listed.itemsWithin_eq_error (h : Reads item Result) (hj : Fails item j e)
    (hjs : List.Forall₂ Result js₁ as) (hl : Listed Spells ']' first (js₁ ++ j :: js₂) s rest)
    (hb : js₁.length < bound) : itemsWithin item bound first s = .error e := by
  induction hjs generalizing first s bound with
  | nil =>
    cases bound with
    | zero => cases hb
    | succ bound =>
    cases hl with
    | first hi hl =>
      have hi' := hj (hl.stops (.inl rfl)) (spells_skipBlanks_iff.2 hi)
      simp only [itemsWithin, hi.nextItem_eq, hi']
    | next hc hi hl =>
      have hi' := hj (hl.stops (.inl rfl)) (spells_skipBlanks_iff.2 hi)
      simp only [itemsWithin, nextItem_next_eq_more_iff.2 ⟨_, hc, hi.nextItem_eq⟩, hi']
  | cons hr _ ih =>
    cases bound with
    | zero => cases hb
    | succ bound =>
    cases hl with
    | first hi hl =>
      have hi' := (h (hl.stops (.inl rfl))).2 ⟨_, spells_skipBlanks_iff.2 hi, hr⟩
      simp only [itemsWithin, hi.nextItem_eq, hi', ih hl (Nat.lt_of_succ_lt_succ hb)]
      rfl
    | next hc hi hl =>
      have hi' := (h (hl.stops (.inl rfl))).2 ⟨_, spells_skipBlanks_iff.2 hi, hr⟩
      simp only [itemsWithin, nextItem_next_eq_more_iff.2 ⟨_, hc, hi.nextItem_eq⟩, hi',
        ih hl (Nat.lt_of_succ_lt_succ hb)]
      rfl

theorem Fails.readList (h : Reads item Result) (hj : Fails item j e)
    (hjs : List.Forall₂ Result js₁ as) :
    Fails (readList (some item)) (.array (js₁ ++ j :: js₂)) e := by
  intro s rest _ hs
  cases hs with
  | array hb hl =>
    have hlen := hl.length_add_lt fun _ _ _ h => h.length_lt
    rw [List.length_append] at hlen
    simp only [Saved.readList, (skipBlanks_eq_cons_iff rfl).2 hb]
    exact hl.itemsWithin_eq_error h hj hjs (by omega)

end Lists

/-! ### Records as arrays -/

/-- An item that is not read, behind others. -/
theorem Fails.readItem_next {α : Type} {value : Reader α} {j : Tree} (shape : Shape)
    (size length : Nat) (h : Fails value j e) (hn : Stops rest) (hb : Blanks s (',' :: s₁))
    (hj : Spells j s₁ rest) : readItem shape size (length + 1) value s = .error e := by
  have hnext : nextItem (length + 1 == 0) s = .ok (.more (skipBlanks s₁)) :=
    nextItem_next_eq_more_iff.2 ⟨s₁, hb, hj.nextItem_eq⟩
  simp only [readItem, hnext]
  exact h hn (spells_skipBlanks_iff.2 hj)

/-! ### Records as objects -/

/-- From the state on, the reader of a field, which starts behind the key, ends
with the problem on every text that spells the value behind its colon.  The
state matters, because a field that was found before would be refused for
another reason. -/
def FailsField {σ : Type} (field : σ → String → Reader σ) (state : σ) (name : String) (j : Tree)
    (e : Problem) : Prop :=
  ∀ ⦃s s₁ rest⦄, Stops rest → Blanks s (':' :: s₁) → Spells j s₁ rest →
    field state name s = .error e

section Fields

variable {σ : Type} {field : σ → String → Reader σ} {Result : σ → String → Tree → σ → Prop}
  {state state₁ : σ} {ms₁ ms₂ : List (List Piece × Tree)} {key : List Piece} {name : String}
  {j : Tree} {first : Bool} {bound : Nat}

/-- A member whose field is not read. -/
theorem FailsField.fieldsWithin_eq {s₂ s₃ : List Char} (h : FailsField field state name j e)
    (hn : nextKey first s = .ok (.more s₁)) (hp : Pieces key s₁ s₂) (hkey : text? key = some name)
    (hc : Blanks s₂ (':' :: s₃)) (hj : Spells j s₃ rest) (hs : Stops rest) :
    fieldsWithin field (bound + 1) first state s = .error e := by
  have hk := readString_eq_ok_iff.2 ⟨key, hp, hkey⟩
  simp only [fieldsWithin, hn, hk, h hs hc hj]

/-- An object is read up to the first member that is not.  The members before it
lead to a state, and the field fails from that state on. -/
theorem Listed.fieldsWithin_eq_error (h : ReadsField field Result)
    (hj : FailsField field state₁ name j e) (hkey : text? key = some name)
    (hms : Folds Result state ms₁ state₁)
    (hl : Listed (Member Spells) '\x7d' first (ms₁ ++ (key, j) :: ms₂) s rest)
    (hb : ms₁.length < bound) : fieldsWithin field bound first state s = .error e := by
  induction hms generalizing first s bound with
  | nil =>
    cases bound with
    | zero => cases hb
    | succ bound =>
    cases hl with
    | first hm hl =>
      obtain ⟨hq, hp, hc, hv⟩ := hm
      exact hj.fieldsWithin_eq (nextKey_first_eq_more_iff.2 hq) hp hkey hc hv (hl.stops (.inr rfl))
    | next hcomma hm hl =>
      obtain ⟨hq, hp, hc, hv⟩ := hm
      have hn := nextKey_next_eq_more_iff.2 ⟨_, hcomma, hq⟩
      exact hj.fieldsWithin_eq hn hp hkey hc hv (hl.stops (.inr rfl))
  | cons hname hr _ ih =>
    cases bound with
    | zero => cases hb
    | succ bound =>
    cases hl with
    | first hm hl =>
      obtain ⟨hq, hp, hc, hv⟩ := hm
      have hn := nextKey_first_eq_more_iff.2 hq
      rw [fieldsWithin_more h hn hp hname hc hv hr (hl.stops (.inr rfl))]
      exact ih hj hl (Nat.lt_of_succ_lt_succ hb)
    | next hcomma hm hl =>
      obtain ⟨hq, hp, hc, hv⟩ := hm
      have hn := nextKey_next_eq_more_iff.2 ⟨_, hcomma, hq⟩
      rw [fieldsWithin_more h hn hp hname hc hv hr (hl.stops (.inr rfl))]
      exact ih hj hl (Nat.lt_of_succ_lt_succ hb)

theorem Listed.fields_eq_error (h : ReadsField field Result)
    (hj : FailsField field state₁ name j e) (hkey : text? key = some name)
    (hms : Folds Result state ms₁ state₁)
    (hl : Listed (Member Spells) '\x7d' true (ms₁ ++ (key, j) :: ms₂) s rest) :
    fields field state s = .error e := by
  have hlen := hl.length_add_lt fun _ _ _ h => h.length_lt fun _ _ _ h => h.length_lt
  rw [List.length_append] at hlen
  exact hl.fieldsWithin_eq_error h hj hkey hms (by omega)

end Fields

/-- What is not read under a key is not put into the state. -/
theorem Fails.readField_map {α σ : Type} {value : Reader α} {name : String} {j : Tree}
    (h : Fails value j e) (hn : Stops rest) (hc : Blanks s (':' :: s₁)) (hj : Spells j s₁ rest)
    (put : α → σ) :
    ((readField name none value s).map fun (a, s) => (put a, s)) = .error e := by
  simp only [readField, readColon_eq_ok_iff.2 hc, h hn hj]
  rfl

/-- The one member with a key, and what stands in front of it.  This is where
the field that fails is found in an object whose fields stand in any order. -/
theorem exists_append_of_valuesOf {name : String} {ms : List (List Piece × Tree)} {j : Tree}
    (h : valuesOf name ms = [j]) :
    ∃ ms₁ key ms₂, ms = ms₁ ++ (key, j) :: ms₂ ∧ text? key = some name ∧
      valuesOf name ms₁ = [] := by
  obtain ⟨ms₁, ⟨key, j'⟩, ms₂, rfl, hnone, hsome, -⟩ := List.filterMap_eq_cons_iff.1 h
  obtain ⟨hkey, rfl⟩ : text? key = some name ∧ j' = j := by simpa using hsome
  exact ⟨ms₁, key, ms₂, rfl, hkey, List.filterMap_eq_nil_iff.2 hnone⟩

/-- In front of any member, a field has been found or is still to come.  For the
other fields this gives the state in which the one that fails is reached. -/
theorem exists_filled {α : Type} {Result : Tree → α → Prop} {name : String}
    {ms₁ ms₂ : List (List Piece × Tree)} {j : Tree} {a : α}
    (h : valuesOf name (ms₁ ++ ms₂) = [j]) (ha : Result j a) :
    ∃ found, Filled Result none (valuesOf name ms₁) found := by
  rw [valuesOf, List.filterMap_append, ← valuesOf, List.append_eq_singleton_iff] at h
  obtain ⟨h, -⟩ | ⟨h, -⟩ := h
  · exact ⟨none, h ▸ .kept none⟩
  · exact ⟨some a, h ▸ .read ha⟩

/-- A record is not read if neither of its spellings is.  The order of the
fields is fixed in an array and free in an object, so the two are shown apart. -/
theorem fails_readRecord {α : Type} {shape : Shape} {fromArray fromObject : Reader α}
    {names : List String} {values : List Tree} {j : Tree} (hrec : RecordOf names j values)
    (harray : ∀ s rest, Listed Spells ']' true values s rest → fromArray s = .error e)
    (hobject : ∀ ms s rest, RecordOf names (.object ms) values →
      Listed (Member Spells) '\x7d' true ms s rest → fromObject s = .error e) :
    Fails (readRecord shape (some (fromArray, fromObject))) j e := by
  intro s rest _ hj
  cases hj with
  | array hb hl =>
    cases hrec
    simp only [readRecord, (skipBlanks_eq_cons_iff rfl).2 hb, harray _ _ hl]
  | object hb hl => simp only [readRecord, (skipBlanks_eq_cons_iff rfl).2 hb, hobject _ _ _ hrec hl]
  | null | yes | no | number | string => cases hrec

/-! ### Binary operations -/

section Binary

variable {operator : Reader Operator} {operand : Reader Expr} {Op : Tree → Operator → Prop}
  {Operand : Tree → Expr → Prop} {found : BinaryFields} {o l r : Tree} {op : Operator}
  {left right : Expr} {ms : List (List Piece × Tree)}

theorem Fails.binaryField_left (h : Fails operand l e) (hfound : found.left = none) :
    FailsField (binaryField operator operand) found "left" l e := by
  intro s s₁ rest hn hc hj
  simp only [binaryField, hfound]
  exact h.readField_map hn hc hj fun a => { found with left := some a }

theorem Fails.binaryField_right (h : Fails operand r e) (hfound : found.right = none) :
    FailsField (binaryField operator operand) found "right" r e := by
  intro s s₁ rest hn hc hj
  simp only [binaryField, hfound]
  exact h.readField_map hn hc hj fun a => { found with right := some a }

/-- Where the fields are not all read, there is no binary operation. -/
theorem readBinaryFields_eq_error
    (h : fields (binaryField operator operand) ⟨none, none, none⟩ s = .error e) :
    readBinaryFields operator operand s = .error e := by
  rw [readBinaryFields_eq, h]
  rfl

theorem readBinaryFields_left (hop : Reads operator Op) (hoperand : Reads operand Operand)
    (hrec : RecordOf ["op", "left", "right"] (.object ms) [o, l, r]) (ho : Op o op)
    (hleft : Fails operand l e) (hright : Operand r right)
    (hl : Listed (Member Spells) '\x7d' true ms s rest) :
    readBinaryFields operator operand s = .error e := by
  cases hrec with
  | object hkeys hvalues =>
    simp only [List.map_cons, List.map_nil, List.cons.injEq, and_true] at hvalues
    obtain ⟨hov, hlv, hrv⟩ := hvalues
    obtain ⟨ms₁, key, ms₂, rfl, hkey, hnone⟩ := exists_append_of_valuesOf hlv
    obtain ⟨op', hop'⟩ := exists_filled hov ho
    obtain ⟨right', hright'⟩ := exists_filled hrv hright
    have hfold : Folds (BinaryStep Op Operand) ⟨none, none, none⟩ ms₁ ⟨op', none, right'⟩ :=
      folds_binaryStep_iff.2 ⟨fun m hm => hkeys m (List.mem_append_left _ hm), hop',
        hnone ▸ .kept none, hright'⟩
    exact readBinaryFields_eq_error (hl.fields_eq_error (readsField_binaryField hop hoperand)
      (hleft.binaryField_left rfl) hkey hfold)

theorem readBinaryFields_right (hop : Reads operator Op) (hoperand : Reads operand Operand)
    (hrec : RecordOf ["op", "left", "right"] (.object ms) [o, l, r]) (ho : Op o op)
    (hleft : Operand l left) (hright : Fails operand r e)
    (hl : Listed (Member Spells) '\x7d' true ms s rest) :
    readBinaryFields operator operand s = .error e := by
  cases hrec with
  | object hkeys hvalues =>
    simp only [List.map_cons, List.map_nil, List.cons.injEq, and_true] at hvalues
    obtain ⟨hov, hlv, hrv⟩ := hvalues
    obtain ⟨ms₁, key, ms₂, rfl, hkey, hnone⟩ := exists_append_of_valuesOf hrv
    obtain ⟨op', hop'⟩ := exists_filled hov ho
    obtain ⟨left', hleft'⟩ := exists_filled hlv hleft
    have hfold : Folds (BinaryStep Op Operand) ⟨none, none, none⟩ ms₁ ⟨op', left', none⟩ :=
      folds_binaryStep_iff.2 ⟨fun m hm => hkeys m (List.mem_append_left _ hm), hop', hleft',
        hnone ▸ .kept none⟩
    exact readBinaryFields_eq_error (hl.fields_eq_error (readsField_binaryField hop hoperand)
      (hright.binaryField_right rfl) hkey hfold)

theorem readBinaryItems_left (hop : Reads operator Op) (ho : Op o op) (hleft : Fails operand l e)
    (hl : Listed Spells ']' true [o, l, r] s rest) :
    readBinaryItems operator operand s = .error e := by
  cases hl with
  | first hjo hl =>
  cases hl with
  | next hb₁ hjl hl =>
  have ho := (hop.readItem_first_eq_ok_iff .binary 3 (hb₁.stops (by decide))).2 ⟨_, hjo, ho⟩
  have hl := hleft.readItem_next .binary 3 0 (hl.stops (.inl rfl)) hb₁ hjl
  simp only [readBinaryItems, ho, hl, bind, Except.bind]

theorem readBinaryItems_right (hop : Reads operator Op) (hoperand : Reads operand Operand)
    (ho : Op o op) (hleft : Operand l left) (hright : Fails operand r e)
    (hl : Listed Spells ']' true [o, l, r] s rest) :
    readBinaryItems operator operand s = .error e := by
  cases hl with
  | first hjo hl =>
  cases hl with
  | next hb₁ hjl hl =>
  cases hl with
  | next hb₂ hjr hl =>
  have ho := (hop.readItem_first_eq_ok_iff .binary 3 (hb₁.stops (by decide))).2 ⟨_, hjo, ho⟩
  have hl' := (hoperand.readItem_next_eq_ok_iff .binary 3 0 (hb₂.stops (by decide))).2
    ⟨_, _, hb₁, hjl, hleft⟩
  have hr := hright.readItem_next .binary 3 1 (hl.stops (.inl rfl)) hb₂ hjr
  simp only [readBinaryItems, ho, hl', hr, bind, Except.bind]

end Binary

/-- A left operand that is not read. -/
theorem fails_readBinary_left {levels : Nat} {j o l r : Tree} {op : Operator} {right : Expr}
    (hrec : RecordOf ["op", "left", "right"] j [o, l, r]) (ho : OperatorOf levels o op)
    (hleft : Fails (readExpr levels) l e) (hright : ExprOf levels r right) :
    Fails (readBinary (levels + 1)) j e := by
  have hop := reads_readOperator levels
  rw [readBinary]
  exact fails_readRecord hrec (fun _ _ => readBinaryItems_left hop ho hleft)
    fun _ _ _ hrec => readBinaryFields_left hop (reads_readExpr levels) hrec ho hleft hright

/-- A right operand that is not read. -/
theorem fails_readBinary_right {levels : Nat} {j o l r : Tree} {op : Operator} {left : Expr}
    (hrec : RecordOf ["op", "left", "right"] j [o, l, r]) (ho : OperatorOf levels o op)
    (hleft : ExprOf levels l left) (hright : Fails (readExpr levels) r e) :
    Fails (readBinary (levels + 1)) j e := by
  have hop := reads_readOperator levels
  have hexpr := reads_readExpr levels
  rw [readBinary]
  exact fails_readRecord hrec (fun _ _ => readBinaryItems_right hop hexpr ho hleft hright)
    fun _ _ _ hrec => readBinaryFields_right hop hexpr hrec ho hleft hright

/-! ### Assignments -/

section Assignment

variable {value : Reader Expr} {OfValue : Tree → Expr → Prop} {t v : Tree} {target : String}
  {found : AssignmentFields} {ms : List (List Piece × Tree)}

theorem Fails.assignmentField_value (h : Fails value v e) (hfound : found.value = none) :
    FailsField (assignmentField value) found "value" v e := by
  intro s s₁ rest hn hc hj
  simp only [assignmentField, hfound]
  exact h.readField_map hn hc hj fun a => { found with value := some a }

theorem readAssignmentFields_value (hreads : Reads value OfValue)
    (hrec : RecordOf ["target", "value"] (.object ms) [t, v]) (ht : NameOf t target)
    (hv : Fails value v e) (hl : Listed (Member Spells) '\x7d' true ms s rest) :
    readAssignmentFields value s = .error e := by
  cases hrec with
  | object hkeys hvalues =>
    simp only [List.map_cons, List.map_nil, List.cons.injEq, and_true] at hvalues
    obtain ⟨htv, hvv⟩ := hvalues
    obtain ⟨ms₁, key, ms₂, rfl, hkey, hnone⟩ := exists_append_of_valuesOf hvv
    obtain ⟨target', ht'⟩ := exists_filled htv ht
    have hfold : Folds (AssignmentStep OfValue) ⟨none, none⟩ ms₁ ⟨target', none⟩ :=
      folds_assignmentStep_iff.2 ⟨fun m hm => hkeys m (List.mem_append_left _ hm), ht',
        hnone ▸ .kept none⟩
    rw [readAssignmentFields_eq, hl.fields_eq_error (readsField_assignmentField hreads)
      (hv.assignmentField_value rfl) hkey hfold]
    rfl

theorem readAssignmentItems_value (ht : NameOf t target) (hv : Fails value v e)
    (hl : Listed Spells ']' true [t, v] s rest) : readAssignmentItems value s = .error e := by
  cases hl with
  | first hjt hl =>
  cases hl with
  | next hb hjv hl =>
  have ht := (reads_readName.readItem_first_eq_ok_iff .assignment 2 (hb.stops (by decide))).2
    ⟨_, hjt, ht⟩
  have hv := hv.readItem_next .assignment 2 0 (hl.stops (.inl rfl)) hb hjv
  simp only [readAssignmentItems, ht, hv, bind, Except.bind]

end Assignment

/-- A value to assign that is not read. -/
theorem fails_readAssignment {levels : Nat} {j t v : Tree} {target : String}
    (hrec : RecordOf ["target", "value"] j [t, v]) (ht : NameOf t target)
    (hv : Fails (readExpr levels) v e) : Fails (readAssignment (levels + 1)) j e := by
  rw [readAssignment]
  exact fails_readRecord hrec (fun _ _ => readAssignmentItems_value ht hv)
    fun _ _ _ hrec => readAssignmentFields_value (reads_readExpr levels) hrec ht hv

/-! ### Whole texts -/

theorem Fails.whole_eq_error {α : Type} {reader : Reader α} {j : Tree} {text : String}
    (h : Fails reader j e) (hj : Spells j text.toList rest) (hb : Blanks rest []) :
    whole reader text = .error e := by
  simp only [whole, h hb.stops_of_end hj]

end StraightLine.Saved
