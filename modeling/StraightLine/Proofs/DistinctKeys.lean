import Mathlib.Data.List.Nodup
import Mathlib.Data.Option.Basic
import StraightLine.Toml.Document

/-!
# The keys of TOML tables

A document that is read has no key twice, neither in itself nor in any table inside it.

## Main definitions

* `Value.Distinct`, `Entries.Distinct` — no table has a key twice, at any depth.

## Main statements

* `Entries.Distinct.append`, `Entries.Distinct.replace`, `Entries.Distinct.erase` — the changes that
  building a document makes to a table.
* `descend_distinct` — a change at the end of a path, in a table anywhere inside.
* `read?_distinct` — whole documents.

## Design notes

* **The table under construction counts too.**  It is taken out of the document while its lines are
  read and put back when it is complete, so the invariant is on both of them.
-/

namespace StraightLine.Toml

/-- No table inside a value has a key twice.  It goes through arrays as well,
since these may hold tables. -/
inductive Value.Distinct : Value → Prop where
  | string (s : String) : Distinct (.string s)
  | integer (n : Int) : Distinct (.integer n)
  | float (x : Float) : Distinct (.float x)
  | boolean (b : Bool) : Distinct (.boolean b)
  | moment : Distinct .moment
  | array {items : List Value} : (∀ item ∈ items, Distinct item) → Distinct (.array items)
  | table {origin : Origin} {entries : List (String × Value)} :
      (entries.map Prod.fst).Nodup → (∀ entry ∈ entries, Distinct entry.2) →
      Distinct (.table origin entries)
  | tables {items : List (List (String × Value))} :
      (∀ entries ∈ items, (entries.map Prod.fst).Nodup) →
      (∀ entries ∈ items, ∀ entry ∈ entries, Distinct entry.2) → Distinct (.tables items)

namespace Entries

/-- A table has no key twice, and neither has a table inside it.  The second
half is needed although settings only lie two levels deep: a path of any length
may lead into the table that is changed. -/
structure Distinct (entries : Entries) : Prop where
  keys : (entries.map Prod.fst).Nodup
  values : ∀ entry ∈ entries, entry.2.Distinct

variable {entries : Entries} {key : String} {value : Value}

theorem mem_of_get? (h : get? entries key = some value) : (key, value) ∈ entries := by
  obtain ⟨entry, hfind, rfl⟩ := Option.map_eq_some_iff.1 h
  have hkey := List.find?_some hfind
  rw [beq_iff_eq] at hkey
  exact hkey ▸ List.mem_of_find?_eq_some hfind

theorem get?_eq_none_iff : get? entries key = none ↔ key ∉ entries.map Prod.fst := by
  rw [get?, Option.map_eq_none_iff, List.find?_eq_none]
  simp only [beq_iff_eq, List.mem_map, not_exists, not_and]

theorem map_fst_replace (entries : Entries) (key : String) (value : Value) :
    (replace entries key value).map Prod.fst = entries.map Prod.fst := by
  rw [replace, List.map_map]
  refine List.map_congr_left fun entry _ => ?_
  rw [Function.comp_apply]
  split
  · exact (beq_iff_eq.1 ‹_›).symm
  · rfl

namespace Distinct

theorem nil : Distinct [] := ⟨List.nodup_nil, fun _ h => absurd h List.not_mem_nil⟩

theorem get? (h : entries.Distinct) (hget : Entries.get? entries key = some value) :
    value.Distinct :=
  h.values _ (mem_of_get? hget)

/-- A new key at the end. -/
theorem append (h : entries.Distinct) (hnew : Entries.get? entries key = none)
    (hvalue : value.Distinct) : Distinct (entries ++ [(key, value)]) := by
  constructor
  · rw [List.map_append, List.map_singleton, List.nodup_append]
    refine ⟨h.keys, List.nodup_singleton _, fun k hk k' hk' => ?_⟩
    rw [List.mem_singleton.1 hk']
    rintro rfl
    exact get?_eq_none_iff.1 hnew hk
  · intro entry hmem
    rcases List.mem_append.1 hmem with hmem | hmem
    · exact h.values entry hmem
    · rw [List.mem_singleton.1 hmem]
      exact hvalue

/-- A new value for a key. -/
theorem replace (h : entries.Distinct) (hvalue : value.Distinct) :
    Distinct (entries.replace key value) := by
  constructor
  · rw [map_fst_replace]
    exact h.keys
  · intro entry hmem
    obtain ⟨old, hold, rfl⟩ := List.mem_map.1 hmem
    split
    · exact hvalue
    · exact h.values old hold

/-- A key less. -/
theorem erase (h : entries.Distinct) : Distinct (entries.erase key) :=
  ⟨h.keys.sublist (List.filter_sublist.map _), fun entry hmem =>
    h.values entry (List.mem_of_mem_filter hmem)⟩

end Distinct

end Entries

theorem distinct_table_iff {origin : Origin} {entries : Entries} :
    (Value.table origin entries).Distinct ↔ entries.Distinct :=
  ⟨fun h => by cases h with | table hkeys hvalues => exact ⟨hkeys, hvalues⟩,
    fun h => .table h.keys h.values⟩

theorem distinct_tables_iff {items : List Entries} :
    (Value.tables items).Distinct ↔ ∀ entries ∈ items, entries.Distinct :=
  ⟨fun h => by
    cases h with
    | tables hkeys hvalues => exact fun entries hmem => ⟨hkeys entries hmem, hvalues entries hmem⟩,
    fun h => .tables (fun entries hmem => (h entries hmem).keys) fun entries hmem =>
      (h entries hmem).values⟩

/-! ### Changes at the end of a path -/

/-- A change that keeps the keys of a table distinct keeps them so when it is
made to the table at the end of a path.  `Result` is what the change guarantees
besides.

The tables on the way are changed at one key each, and a new table is made where
the path leads to none; all changes of a document are instances of this one
descent. -/
theorem descend_distinct {β : Type} (Result : β → Prop) {viaDots : Bool}
    {change : Origin → Entries → Option (Entries × β)}
    (hchange : ∀ {origin : Origin} {entries changed : Entries} {result : β}, entries.Distinct →
      change origin entries = some (changed, result) → changed.Distinct ∧ Result result)
    {path : List String} {origin : Origin} {entries changed : Entries} {result : β}
    (h : entries.Distinct)
    (hdescend : descend viaDots change path origin entries = some (changed, result)) :
    changed.Distinct ∧ Result result := by
  induction path generalizing origin entries changed result with
  | nil => exact hchange h hdescend
  | cons key rest ih =>
    rw [descend] at hdescend
    split at hdescend
    · rename_i hget
      obtain ⟨⟨inner, r⟩, hinner, heq⟩ := Option.bind_eq_some_iff.1 hdescend
      obtain ⟨hd, hr⟩ := ih .nil hinner
      cases heq
      exact ⟨h.append hget (distinct_table_iff.2 hd), hr⟩
    · rename_i o inner hget
      obtain ⟨-, -, hdescend⟩ := Option.bind_eq_some_iff.1 hdescend
      obtain ⟨⟨inner', r⟩, hinner, heq⟩ := Option.bind_eq_some_iff.1 hdescend
      obtain ⟨hd, hr⟩ := ih (distinct_table_iff.1 (h.get? hget)) hinner
      cases heq
      exact ⟨h.replace (distinct_table_iff.2 hd), hr⟩
    · rename_i items hget
      obtain ⟨last, hlast, hdescend⟩ := Option.bind_eq_some_iff.1 hdescend
      obtain ⟨⟨last', r⟩, hinner, heq⟩ := Option.bind_eq_some_iff.1 hdescend
      have hitems := distinct_tables_iff.1 (h.get? hget)
      obtain ⟨hd, hr⟩ := ih (hitems last (List.mem_of_getLast? hlast)) hinner
      cases heq
      refine ⟨h.replace (distinct_tables_iff.2 fun entries hmem => ?_), hr⟩
      rcases List.mem_append.1 hmem with hmem | hmem
      · exact hitems entries (List.dropLast_subset items hmem)
      · rw [List.mem_singleton.1 hmem]
        exact hd
    · cases hdescend

theorem assign_distinct {path : List String} {value : Value} {entries changed : Entries}
    (h : entries.Distinct) (hvalue : value.Distinct)
    (hassign : assign path value entries = some changed) : changed.Distinct := by
  obtain ⟨key, -, hassign⟩ := Option.bind_eq_some_iff.1 hassign
  obtain ⟨⟨changed', u⟩, hdescend, heq⟩ := Option.bind_eq_some_iff.1 hassign
  cases heq
  refine (descend_distinct (fun _ => True) (fun {origin es _ _} hes hinsert => ?_) h hdescend).1
  split at hinsert
  · cases hinsert
  · split at hinsert
    · cases hinsert
    · rename_i hnew
      cases hinsert
      exact ⟨hes.append (by simpa using hnew) hvalue, trivial⟩

/-! ### Values -/

section Values

variable {item : Parser Value} {s rest : List Char}

theorem readItems_distinct
    (hitem : ∀ {s : List Char} {value : Value} {rest : List Char}, item s = some (value, rest) →
      value.Distinct)
    {bound : Nat} {values : List Value} (h : readItems item bound s = some (values, rest)) :
    ∀ value ∈ values, value.Distinct := by
  induction bound generalizing s values rest with
  | zero => cases h
  | succ bound ih =>
    rw [readItems] at h
    split at h
    · cases h
      simp
    · obtain ⟨⟨value, s₁⟩, hvalue, h⟩ := Option.bind_eq_some_iff.1 h
      dsimp only at h
      split at h
      · obtain ⟨⟨more, s₂⟩, hmore, heq⟩ := Option.map_eq_some_iff.1 h
        cases heq
        exact List.forall_mem_cons.2 ⟨hitem hvalue, ih hmore⟩
      · cases h
        simpa using hitem hvalue
      · cases h

theorem readField_distinct
    (hitem : ∀ {s : List Char} {value : Value} {rest : List Char}, item s = some (value, rest) →
      value.Distinct)
    {path : List String} {value : Value} (h : readField item s = some ((path, value), rest)) :
    value.Distinct := by
  obtain ⟨⟨path', s₁⟩, -, h⟩ := Option.bind_eq_some_iff.1 h
  obtain ⟨s₂, -, h⟩ := Option.bind_eq_some_iff.1 h
  obtain ⟨⟨value', s₃⟩, hvalue, heq⟩ := Option.bind_eq_some_iff.1 h
  cases heq
  exact hitem hvalue

theorem readFields_distinct
    (hitem : ∀ {s : List Char} {value : Value} {rest : List Char}, item s = some (value, rest) →
      value.Distinct)
    {bound : Nat} {pairs : List (List String × Value)}
    (h : readFields item bound s = some (pairs, rest)) : ∀ pair ∈ pairs, pair.2.Distinct := by
  induction bound generalizing s pairs rest with
  | zero => cases h
  | succ bound ih =>
    rw [readFields] at h
    obtain ⟨⟨⟨path, value⟩, s₁⟩, hfield, h⟩ := Option.bind_eq_some_iff.1 h
    dsimp only at h
    split at h
    · obtain ⟨⟨more, s₂⟩, hmore, heq⟩ := Option.map_eq_some_iff.1 h
      cases heq
      exact List.forall_mem_cons.2 ⟨readField_distinct hitem hfield, ih hmore⟩
    · cases h
      simpa using readField_distinct hitem hfield
    · cases h

end Values

theorem assignAll_distinct {pairs : List (List String × Value)} {entries changed : Entries}
    (h : entries.Distinct) (hpairs : ∀ pair ∈ pairs, pair.2.Distinct)
    (hassign : pairs.foldlM (fun entries (path, value) => assign path value entries) entries =
      some changed) : changed.Distinct := by
  induction pairs generalizing entries with
  | nil =>
    cases hassign
    exact h
  | cons pair pairs ih =>
    obtain ⟨hpair, hpairs⟩ := List.forall_mem_cons.1 hpairs
    rw [List.foldlM_cons] at hassign
    obtain ⟨next, hnext, hassign⟩ := Option.bind_eq_some_iff.1 hassign
    exact ih (assign_distinct h hpair hnext) hpairs hassign

theorem toValue_distinct (n : Number) : n.toValue.Distinct := by
  cases n with
  | integer n => exact .integer n
  | float x => exact .float x
  | moment => exact .moment

theorem readWord_distinct {word s rest : List Char} {b : Bool} {value : Value}
    (h : readWord word (.boolean b) s = some (value, rest)) : value.Distinct := by
  rw [readWord] at h
  split at h
  · cases h
    exact .boolean b
  · cases h

/-- A value that is read has no key twice.  Only an inline table could have one,
and it is built by the assignments that build a document. -/
theorem readValueWithin_distinct {levels : Nat} {s rest : List Char} {value : Value}
    (h : readValueWithin levels s = some (value, rest)) : value.Distinct := by
  induction levels using Nat.strongRecOn generalizing s value rest with
  | ind levels ih =>
    unfold readValueWithin at h
    split at h
    · obtain ⟨⟨text, s₁⟩, -, heq⟩ := Option.map_eq_some_iff.1 h
      cases heq
      exact .string text
    · obtain ⟨⟨text, s₁⟩, -, heq⟩ := Option.map_eq_some_iff.1 h
      cases heq
      exact .string text
    · exact readWord_distinct h
    · exact readWord_distinct h
    · split at h
      · cases h
      · obtain ⟨⟨items, s₁⟩, hitems, heq⟩ := Option.map_eq_some_iff.1 h
        cases heq
        exact .array (readItems_distinct (ih _ (Nat.lt_succ_self _)) hitems)
    · split at h
      · cases h
      · split at h
        · cases h
          exact distinct_table_iff.2 .nil
        · obtain ⟨⟨pairs, s₁⟩, hpairs, h⟩ := Option.bind_eq_some_iff.1 h
          obtain ⟨entries, hassign, heq⟩ := Option.bind_eq_some_iff.1 h
          cases heq
          have hdistinct := readFields_distinct (ih _ (Nat.lt_succ_self _)) hpairs
          exact distinct_table_iff.2 (assignAll_distinct .nil hdistinct hassign)
    · obtain ⟨⟨n, s₁⟩, -, heq⟩ := Option.map_eq_some_iff.1 h
      cases heq
      exact toValue_distinct n

/-! ### Documents -/

namespace Builder

variable {b next : Builder} {path : List String}

/-- Neither the document so far nor the table under construction has a key
twice.  The two may have keys in common, for the table stands for another place
of the document. -/
structure Distinct (b : Builder) : Prop where
  document : b.document.Distinct
  current : b.current.Distinct

theorem start_distinct : Distinct start := ⟨.nil, .nil⟩

theorem Distinct.pair (h : b.Distinct) {value : Value} (hvalue : value.Distinct)
    (hpair : b.pair path value = some next) : next.Distinct := by
  obtain ⟨entries, hassign, rfl⟩ := Option.map_eq_some_iff.1 hpair
  exact ⟨h.document, assign_distinct h.current hvalue hassign⟩

theorem Distinct.close (h : b.Distinct) {document : Entries} (hclose : b.close = some document) :
    document.Distinct := by
  unfold Builder.close at hclose
  split at hclose
  · cases hclose
    exact h.current
  · obtain ⟨key, -, hclose⟩ := Option.bind_eq_some_iff.1 hclose
    obtain ⟨⟨document', u⟩, hdescend, heq⟩ := Option.bind_eq_some_iff.1 hclose
    cases heq
    refine (descend_distinct (fun _ => True) (fun {origin es _ _} hes hinsert => ?_) h.document
      hdescend).1
    split at hinsert
    · cases hinsert
    · rename_i hnew
      cases hinsert
      exact ⟨hes.append (by simpa using hnew) (distinct_table_iff.2 h.current), trivial⟩
  · obtain ⟨key, -, hclose⟩ := Option.bind_eq_some_iff.1 hclose
    obtain ⟨⟨document', u⟩, hdescend, heq⟩ := Option.bind_eq_some_iff.1 hclose
    cases heq
    refine (descend_distinct (fun _ => True) (fun {origin es _ _} hes hinsert => ?_) h.document
      hdescend).1
    split at hinsert
    · rename_i items hget
      cases hinsert
      refine ⟨hes.replace (distinct_tables_iff.2 fun entries hmem => ?_), trivial⟩
      rcases List.mem_append.1 hmem with hmem | hmem
      · exact distinct_tables_iff.1 (hes.get? hget) entries hmem
      · rw [List.mem_singleton.1 hmem]
        exact h.current
    · cases hinsert

theorem Distinct.openTable (h : b.Distinct) (hopen : b.openTable path = some next) :
    next.Distinct := by
  obtain ⟨document, hclose, hopen⟩ := Option.bind_eq_some_iff.1 hopen
  obtain ⟨key, -, hopen⟩ := Option.bind_eq_some_iff.1 hopen
  obtain ⟨⟨document', inner⟩, hdescend, heq⟩ := Option.bind_eq_some_iff.1 hopen
  cases heq
  obtain ⟨hd, hinner⟩ := descend_distinct Entries.Distinct
    (fun {origin es _ _} hes htake => by
      split at htake
      · cases htake
        exact ⟨hes, .nil⟩
      · rename_i inner hget
        cases htake
        exact ⟨hes.erase, distinct_table_iff.1 (hes.get? hget)⟩
      · cases htake) (h.close hclose) hdescend
  exact ⟨hd, hinner⟩

theorem Distinct.openMember (h : b.Distinct) (hopen : b.openMember path = some next) :
    next.Distinct := by
  obtain ⟨document, hclose, hopen⟩ := Option.bind_eq_some_iff.1 hopen
  obtain ⟨key, -, hopen⟩ := Option.bind_eq_some_iff.1 hopen
  obtain ⟨⟨document', u⟩, hdescend, heq⟩ := Option.bind_eq_some_iff.1 hopen
  cases heq
  obtain ⟨hd, -⟩ := descend_distinct (fun _ => True)
    (fun {origin es _ _} hes hprepare => by
      split at hprepare
      · rename_i hnew
        cases hprepare
        exact ⟨hes.append hnew (distinct_tables_iff.2 (by simp)), trivial⟩
      · cases hprepare
        exact ⟨hes, trivial⟩
      · cases hprepare) (h.close hclose) hdescend
  exact ⟨hd, .nil⟩

end Builder

/-- The lines of a document keep its keys distinct.  Each line adds a pair to
the table under construction, or closes it and opens another. -/
theorem readLines_distinct {bound : Nat} {b next : Builder} {s : List Char} (h : b.Distinct)
    (hread : readLines bound b s = some next) : next.Distinct := by
  induction bound generalizing b s with
  | zero => cases hread
  | succ bound ih =>
    rw [readLines] at hread
    split at hread
    · cases hread
      exact h
    · obtain ⟨s₁, -, hread⟩ := Option.bind_eq_some_iff.1 hread
      exact ih h hread
    · exact ih h hread
    · obtain ⟨⟨path, s₁⟩, -, hread⟩ := Option.bind_eq_some_iff.1 hread
      obtain ⟨b₁, hopen, hread⟩ := Option.bind_eq_some_iff.1 hread
      exact ih (h.openMember hopen) hread
    · obtain ⟨⟨path, s₁⟩, -, hread⟩ := Option.bind_eq_some_iff.1 hread
      obtain ⟨b₁, hopen, hread⟩ := Option.bind_eq_some_iff.1 hread
      exact ih (h.openTable hopen) hread
    · obtain ⟨⟨⟨path, value⟩, s₁⟩, hfield, hread⟩ := Option.bind_eq_some_iff.1 hread
      obtain ⟨b₁, hpair, hread⟩ := Option.bind_eq_some_iff.1 hread
      obtain ⟨s₂, -, hread⟩ := Option.bind_eq_some_iff.1 hread
      exact ih (h.pair (readField_distinct readValueWithin_distinct hfield) hpair) hread

/-- A document that is read has no key twice. -/
theorem read?_distinct {text : String} {document : Entries} (h : read? text = some document) :
    document.Distinct := by
  obtain ⟨b, hread, hclose⟩ := Option.bind_eq_some_iff.1 h
  exact (readLines_distinct Builder.start_distinct hread).close hclose

end StraightLine.Toml
