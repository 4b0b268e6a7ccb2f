import Mathlib.Data.List.Forall2
import StraightLine.Proofs.Reading

/-!
# The brackets that a reader counts

A reader goes by what it expects: under a key that it knows, or at a place of a record, it expects a
certain part of a program and counts the brackets of that part; what stands under any other key it
reads over without counting.

## Main definitions

* `Role` — what can be expected, with the roles of the fields and items inside.
* `Tree.counted` — how many counted brackets lie inside one another.

## Main statements

* `ExprOf.counted_le`, `ExprOf.of_counted_le` — the form of an expression holds at a number of
  levels exactly if that many brackets are counted at most.
* `BodyOf.iff_counted_le` — the same for the body of a block.

## Design notes

* **The count is a function of the value alone,** with no number of levels in it, so it is the
  number at which a reader that accepts the value starts to accept it.
* **A record is counted in the same way in both of its spellings:** its array has the roles of its
  fields, in their order.
-/

namespace StraightLine.Saved

/-- What a reader expects at some place of a saved program.  A literal and a
name are both scalars, since no bracket can stand where one of them is expected. -/
inductive Role where
  | statement
  | assignment
  | body
  | expression
  | binary
  | operator
  | scalar
  deriving DecidableEq

namespace Role

/-- The known keys of an object, with what is expected under them.  An object
with one field and a record are treated alike: both count what is under a known
key. -/
def fields : Role → List (String × Role)
  | .statement => [("assignment", .assignment), ("return", .expression), ("block", .body)]
  | .assignment => [("target", .scalar), ("value", .expression)]
  | .expression => [("literal", .scalar), ("variable", .scalar), ("binary", .binary)]
  | .binary => [("op", .operator), ("left", .expression), ("right", .expression)]
  | .body => []
  | .operator => []
  | .scalar => []

/-- What is expected of the items of an array of a given length.  In the body of
a block all items are statements; a record has its fields in order. -/
def items : Role → Nat → List Role
  | .body, length => List.replicate length .statement
  | role, _ => role.fields.map Prod.snd

end Role

namespace Tree

mutual

/-- How many brackets and braces lie inside one another at most, those under
unknown keys left out.  It is defined on values that have the form and on values
that have not, so it has to be paired with the form before it says anything
about a reader. -/
def counted : Role → Tree → Nat
  | _, .null => 0
  | _, .boolean _ => 0
  | _, .number _ => 0
  | _, .string _ => 0
  | role, .array items => countedItems (role.items items.length) items + 1
  | role, .object members => countedMembers role.fields members + 1

/-- The greatest count among the items of an array. -/
def countedItems : List Role → List Tree → Nat
  | role :: roles, j :: js => max (j.counted role) (countedItems roles js)
  | _, _ => 0

/-- The greatest count among the values of the members with a known key. -/
def countedMembers : List (String × Role) → List (List Piece × Tree) → Nat
  | _, [] => 0
  | known, (key, j) :: ms =>
    max
      (match (text? key).bind fun name => known.lookup name with
      | some role => j.counted role
      | none => 0)
      (countedMembers known ms)

end

end Tree

/-! ### Objects with one field -/

theorem OneField.counted_eq {name : String} {j v : Tree} (h : OneField name j v) {role inner : Role}
    (hrole : role.fields.lookup name = some inner) : j.counted role = v.counted inner + 1 := by
  obtain ⟨hkey⟩ := h
  rw [Tree.counted, Tree.countedMembers, hkey, Option.bind_some, hrole, Tree.countedMembers,
    Nat.max_zero]

/-! ### Records -/

theorem lookup_eq_some_iff_mem {known : List (String × Role)} (hnodup : (known.map Prod.fst).Nodup)
    {name : String} {role : Role} : known.lookup name = some role ↔ (name, role) ∈ known := by
  induction known with
  | nil => simp
  | cons entry known ih =>
      obtain ⟨key, inner⟩ := entry
      rw [List.map_cons, List.nodup_cons] at hnodup
      by_cases hkey : name = key
      · subst hkey
        have hout : (name, role) ∉ known := fun hmem =>
          hnodup.1 (List.mem_map.mpr ⟨_, hmem, rfl⟩)
        simp [hout, eq_comm]
      · have hne : (name == key) = false := beq_eq_false_iff_ne.mpr hkey
        rw [List.lookup_cons, hne, ih hnodup.2]
        simp [hkey]

/-- The members count as the values under the known keys do.  The maximum over
members, in their order, becomes a condition on each field by itself. -/
theorem countedMembers_le_iff {known : List (String × Role)} {ms : List (List Piece × Tree)}
    {n : Nat} : Tree.countedMembers known ms ≤ n ↔
      ∀ name role, known.lookup name = some role → ∀ v ∈ valuesOf name ms, v.counted role ≤ n := by
  induction ms with
  | nil => simp [Tree.countedMembers, valuesOf]
  | cons m ms ih =>
      obtain ⟨key, j⟩ := m
      rw [Tree.countedMembers, Nat.max_le, ih]
      -- A key that is no text names no field, and its value counts nothing.
      cases hkey : text? key with
      | none =>
          have hvalues : ∀ name, valuesOf name ((key, j) :: ms) = valuesOf name ms := by
            intro name
            simp [valuesOf, hkey]
          simp only [Option.bind_none, Nat.zero_le, true_and, hvalues]
      | some found =>
          have hhere : (match (some found).bind fun name => known.lookup name with
              | some role => j.counted role
              | none => 0) ≤ n ↔
              ∀ role, known.lookup found = some role → j.counted role ≤ n := by
            rw [Option.bind_some]
            cases known.lookup found <;> simp
          simp only [valuesOf_cons hkey]
          rw [hhere]
          constructor
          · rintro ⟨hj, hms⟩ name role hrole v hv
            split at hv
            · rename_i hname
              subst hname
              rcases List.mem_cons.mp hv with rfl | hv
              · exact hj role hrole
              · exact hms _ role hrole v hv
            · exact hms name role hrole v hv
          · intro h
            refine ⟨fun role hrole => h found role hrole j (by simp), fun name role hrole v hv =>
              h name role hrole v ?_⟩
            split
            · exact List.mem_cons_of_mem _ hv
            · exact hv

/-- The items count as they do one by one. -/
theorem countedItems_le_iff {known : List (String × Role)} {values : List Tree} {n : Nat}
    (hlength : values.length = known.length) :
    Tree.countedItems (known.map Prod.snd) values ≤ n ↔
      List.Forall₂ (fun f v => v.counted f.2 ≤ n) known values := by
  induction known generalizing values with
  | nil =>
      obtain rfl := List.eq_nil_of_length_eq_zero hlength
      exact iff_of_true (Nat.zero_le _) .nil
  | cons f known ih =>
      cases values with
      | nil => cases hlength
      | cons v values =>
          rw [List.map_cons, Tree.countedItems, Nat.max_le, List.forall₂_cons,
            ih (Nat.succ.inj hlength)]

/-- Where every key has one value, the values are those of the keys in order. -/
theorem forall_valuesOf_iff {known : List (String × Role)} {ms : List (List Piece × Tree)}
    {values : List Tree} {P : Role → Tree → Prop}
    (hvalues : (known.map Prod.fst).map (valuesOf · ms) = values.map ([·])) :
    (∀ name role, (name, role) ∈ known → ∀ v ∈ valuesOf name ms, P role v) ↔
      List.Forall₂ (fun f v => P f.2 v) known values := by
  induction known generalizing values with
  | nil =>
      obtain rfl : values = [] := by simpa using hvalues.symm
      exact iff_of_true (by simp) .nil
  | cons f known ih =>
      obtain ⟨key, role⟩ := f
      cases values with
      | nil => cases hvalues
      | cons v values =>
          obtain ⟨hkey, hrest⟩ := List.cons.inj hvalues
          have hvalue : ∀ w, w ∈ valuesOf key ms ↔ w = v := by
            intro w
            rw [show valuesOf key ms = [v] from hkey, List.mem_singleton]
          rw [List.forall₂_cons, ← ih hrest]
          simp only [List.mem_cons, Prod.mk.injEq]
          constructor
          · intro h
            refine ⟨h key role (Or.inl ⟨rfl, rfl⟩) v ((hvalue v).mpr rfl), ?_⟩
            intro name r hmem w hw
            exact h name r (Or.inr hmem) w hw
          · rintro ⟨hhere, hrest⟩ name r (⟨rfl, rfl⟩ | hmem) w hw
            · rw [(hvalue w).mp hw]
              exact hhere
            · exact hrest name r hmem w hw

/-- The fields of a record count as they do one by one, in both spellings.  From
here on it does not matter whether a record was written as an array or as an
object. -/
theorem RecordOf.counted_le_iff {role : Role} {j : Tree} {values : List Tree} {n : Nat}
    (h : RecordOf (role.fields.map Prod.fst) j values)
    (hitems : role.items values.length = role.fields.map Prod.snd)
    (hnodup : (role.fields.map Prod.fst).Nodup) :
    j.counted role ≤ n + 1 ↔
      List.Forall₂ (fun f v => v.counted f.2 ≤ n) role.fields values := by
  cases h with
  | array hlength =>
      rw [Tree.counted, Nat.add_le_add_iff_right, hitems]
      exact countedItems_le_iff (by rwa [List.length_map] at hlength)
  | object _ hvalues =>
      rw [Tree.counted, Nat.add_le_add_iff_right, countedMembers_le_iff]
      simp only [lookup_eq_some_iff_mem hnodup]
      exact forall_valuesOf_iff hvalues

/-- The brackets of a record itself are counted. -/
theorem RecordOf.counted_pos {names : List String} {j : Tree} {values : List Tree}
    (h : RecordOf names j values) (role : Role) : 0 < j.counted role := by
  cases h with
  | array | object =>
      rw [Tree.counted]
      exact Nat.succ_pos _

theorem counted_binary_le_iff {j o l r : Tree} {n : Nat}
    (h : RecordOf ["op", "left", "right"] j [o, l, r]) :
    j.counted .binary ≤ n + 1 ↔
      o.counted .operator ≤ n ∧ l.counted .expression ≤ n ∧ r.counted .expression ≤ n := by
  have hrecord : RecordOf (Role.binary.fields.map Prod.fst) j [o, l, r] := h
  rw [hrecord.counted_le_iff rfl (by decide)]
  simp [Role.fields]

theorem counted_assignment_le_iff {j t v : Tree} {n : Nat}
    (h : RecordOf ["target", "value"] j [t, v]) :
    j.counted .assignment ≤ n + 1 ↔ t.counted .scalar ≤ n ∧ v.counted .expression ≤ n := by
  have hrecord : RecordOf (Role.assignment.fields.map Prod.fst) j [t, v] := h
  rw [hrecord.counted_le_iff rfl (by decide)]
  simp [Role.fields]

/-! ### Expressions -/

theorem LiteralOf.counted_eq {j : Tree} {value : Value} (h : LiteralOf j value) (role : Role) :
    j.counted role = 0 := by
  cases h <;> rw [Tree.counted]

theorem NameOf.counted_eq {j : Tree} {name : String} (h : NameOf j name) (role : Role) :
    j.counted role = 0 := by
  cases h
  rw [Tree.counted]

/-- The form of an operator holds at as many levels as brackets are counted. -/
theorem OperatorOf.iff_counted_le {levels : Nat} {j : Tree} {op : Operator}
    (h : OperatorOf levels j op) (n : Nat) : OperatorOf n j op ↔ j.counted .operator ≤ n := by
  cases h with
  | bare hname =>
      rw [Tree.counted]
      exact iff_of_true (.bare hname) (Nat.zero_le n)
  | object hfield =>
      have hone : j.counted .operator = 1 := by
        obtain ⟨hkey⟩ := hfield
        rw [Tree.counted, Tree.countedMembers, hkey, Tree.countedMembers]
        rfl
      rw [hone]
      constructor
      · rintro (⟨-⟩ | ⟨-⟩)
        · cases hfield
        · exact Nat.succ_pos _
      · intro hn
        obtain ⟨n, rfl⟩ := Nat.exists_eq_add_of_le' hn
        exact .object hfield

/-- No more brackets are counted in an expression than there are levels.  It is
the direction that a successful reading gives. -/
theorem ExprOf.counted_le {levels : Nat} {j : Tree} {e : Expr} (h : ExprOf levels j e) :
    j.counted .expression ≤ levels := by
  induction h with
  | @literal levels j j₁ value hfield hvalue =>
      have hj : j.counted .expression = j₁.counted .scalar + 1 := hfield.counted_eq (by decide)
      rw [hj, hvalue.counted_eq]
      exact Nat.le_add_left 1 levels
  | @«variable» levels j j₁ name hfield hname =>
      have hj : j.counted .expression = j₁.counted .scalar + 1 := hfield.counted_eq (by decide)
      rw [hj, hname.counted_eq]
      exact Nat.le_add_left 1 levels
  | @binary levels j j₁ o l r op left right hfield hrecord hop _ _ ihl ihr =>
      have hj : j.counted .expression = j₁.counted .binary + 1 := hfield.counted_eq (by decide)
      have hparts := (hop.iff_counted_le levels).mp hop
      have hcontent := (counted_binary_le_iff hrecord).mpr ⟨hparts, ihl, ihr⟩
      omega

/-- An expression has its form at any number of levels that is enough for its
brackets.  The hypothesis at some other number of levels says that it is an
expression at all. -/
theorem ExprOf.of_counted_le {levels n : Nat} {j : Tree} {e : Expr} (h : ExprOf levels j e)
    (hn : j.counted .expression ≤ n) : ExprOf n j e := by
  induction h generalizing n with
  | @literal levels j j₁ value hfield hvalue =>
      have hj : j.counted .expression = j₁.counted .scalar + 1 := hfield.counted_eq (by decide)
      obtain ⟨n, rfl⟩ := Nat.exists_eq_add_of_le' (by omega : 1 ≤ n)
      exact .literal hfield hvalue
  | @«variable» levels j j₁ name hfield hname =>
      have hj : j.counted .expression = j₁.counted .scalar + 1 := hfield.counted_eq (by decide)
      obtain ⟨n, rfl⟩ := Nat.exists_eq_add_of_le' (by omega : 1 ≤ n)
      exact .variable hfield hname
  | @binary levels j j₁ o l r op left right hfield hrecord hop _ _ ihl ihr =>
      have hj : j.counted .expression = j₁.counted .binary + 1 := hfield.counted_eq (by decide)
      have hpos := hrecord.counted_pos .binary
      obtain ⟨n, rfl⟩ := Nat.exists_eq_add_of_le' (by omega : 2 ≤ n)
      obtain ⟨ho, hl, hr⟩ := (counted_binary_le_iff hrecord).mp (by omega : _ ≤ n + 1)
      exact .binary hfield hrecord ((hop.iff_counted_le n).mpr ho) (ihl hl) (ihr hr)

/-! ### Statements -/

/-- No more brackets are counted in a statement than there are levels, and it
has its form at any number of levels that is enough for them.  Both halves are
proved together, since a block needs them for each of its statements. -/
def CountedIn (levels : Nat) (j : Tree) (s : Stmt) : Prop :=
  j.counted .statement ≤ levels ∧ ∀ n, j.counted .statement ≤ n → StmtOf n j s

theorem StmtOf.countedIn_action {levels : Nat} {j : Tree} {a : Action}
    (h : StmtOf levels j (.action a)) : CountedIn levels j (.action a) := by
  cases h with
  | @assign levels j j₁ t v target value hfield hrecord htarget hvalue =>
      have hj : j.counted .statement = j₁.counted .assignment + 1 := hfield.counted_eq (by decide)
      constructor
      · have hcontent := (counted_assignment_le_iff hrecord).mpr
          ⟨(htarget.counted_eq .scalar).trans_le (Nat.zero_le levels), hvalue.counted_le⟩
        omega
      · intro n hn
        have hpos := hrecord.counted_pos .assignment
        obtain ⟨n, rfl⟩ := Nat.exists_eq_add_of_le' (by omega : 2 ≤ n)
        obtain ⟨-, hle⟩ := (counted_assignment_le_iff hrecord).mp (by omega : _ ≤ n + 1)
        exact .assign hfield hrecord htarget (hvalue.of_counted_le hle)
  | @ret levels j j₁ value hfield hvalue =>
      have hj : j.counted .statement = j₁.counted .expression + 1 := hfield.counted_eq (by decide)
      constructor
      · have hcontent := hvalue.counted_le
        omega
      · intro n hn
        obtain ⟨n, rfl⟩ := Nat.exists_eq_add_of_le' (by omega : 1 ≤ n)
        exact .ret hfield (hvalue.of_counted_le (by omega))

/-- The counts of statements in a row. -/
theorem countedItems_statements_le_iff {js : List Tree} {n : Nat} :
    Tree.countedItems (Role.body.items js.length) js ≤ n ↔ ∀ j ∈ js, j.counted .statement ≤ n := by
  rw [Role.items]
  induction js with
  | nil => simp [Tree.countedItems]
  | cons j js ih =>
      rw [List.length_cons, List.replicate_succ, Tree.countedItems, Nat.max_le, ih,
        List.forall_mem_cons]

theorem countedIn_of_form :
    (∀ (s : Stmt) (levels : Nat) (j : Tree), StmtOf levels j s → CountedIn levels j s) ∧
    (∀ (body : List Stmt) (levels : Nat) (js : List Tree), StmtsOf levels js body →
      (∀ j ∈ js, j.counted .statement ≤ levels) ∧
        ∀ n, (∀ j ∈ js, j.counted .statement ≤ n) → StmtsOf n js body) := by
  refine Stmt.induction ?action ?block ?nil ?cons
  case action =>
    intro a levels j h
    exact h.countedIn_action
  case block =>
    intro body ih levels j h
    cases h with
    | @block levels j j₁ _ hfield hbody =>
        obtain @⟨levels, js, _, hjs⟩ := hbody
        obtain ⟨hle, hform⟩ := ih levels js hjs
        have hj : j.counted .statement = (Tree.array js).counted .body + 1 :=
          hfield.counted_eq (by decide)
        rw [Tree.counted] at hj
        have hbody := countedItems_statements_le_iff.mpr hle
        constructor
        · omega
        · intro n hn
          -- One level is taken by the object of the block and one by its list.
          obtain ⟨n, rfl⟩ := Nat.exists_eq_add_of_le' (by omega : 2 ≤ n)
          exact .block hfield (.array (hform n (countedItems_statements_le_iff.mp (by omega))))
  case nil =>
    intro levels js h
    cases h
    exact ⟨by simp, fun n _ => .nil⟩
  case cons =>
    intro s rest ihs ihrest levels js h
    cases h with
    | cons hs hrest =>
        obtain ⟨hle, hform⟩ := ihs levels _ hs
        obtain ⟨hle', hform'⟩ := ihrest levels _ hrest
        refine ⟨List.forall_mem_cons.mpr ⟨hle, hle'⟩, fun n hn => ?_⟩
        rw [List.forall_mem_cons] at hn
        exact .cons (hform n hn.1) (hform' n hn.2)

/-- **The body of a block has its form at as many levels as brackets are counted
in it.** So the count is the least number of levels with which it can be read. -/
theorem BodyOf.iff_counted_le {levels : Nat} {j : Tree} {body : List Stmt}
    (h : BodyOf levels j body) (n : Nat) : BodyOf n j body ↔ j.counted .body ≤ n := by
  have hcounted : ∀ {m js}, StmtsOf m js body → (Tree.array js).counted .body ≤ m + 1 := by
    intro m js hjs
    rw [Tree.counted, Nat.add_le_add_iff_right]
    exact countedItems_statements_le_iff.mpr (countedIn_of_form.2 body m js hjs).1
  constructor
  · rintro ⟨hjs⟩
    exact hcounted hjs
  · intro hn
    obtain @⟨levels, js, _, hjs⟩ := h
    rw [Tree.counted] at hn
    obtain ⟨n, rfl⟩ := Nat.exists_eq_add_of_le' (by omega : 1 ≤ n)
    have hitems := countedItems_statements_le_iff.mp (Nat.le_of_succ_le_succ hn)
    exact .array ((countedIn_of_form.2 body levels js hjs).2 n hitems)

end StraightLine.Saved
