import Mathlib.Data.String.Basic
import StraightLine.Proofs.ChosenSettings

/-!
# Unknown keys of settings

A key without meaning is reported once and has no other effect.

## Main definitions

* `ListsUnknown` — the keys of a table that are not known, each once and in order.
* `withoutUnknown` — a document without the keys that have no meaning.

## Main statements

* `listsUnknown_unknownIn` — the keys that are reported.
* `settleEntries?_withoutUnknown` — a document and its table with dates lose the same keys.
* `unknown_keys_reported` — warnings, removal of the keys, and settings.

## Design notes

* **The settings do not see unknown keys,** since they are given by the values of the known ones
  (`Choice`), and these are the same with and without the others.
-/

namespace StraightLine

/-! ### Tables with their dates settled -/

namespace Toml

variable {entries settled : Entries} {origin origin' : Origin} {key : String}

/-- Settled entries have the same keys, and under each the settled value.  So
whatever is asked of keys can be asked before or after dates are settled. -/
theorem settleEntries?_eq_some_iff :
    settleEntries? entries = some settled ↔
      List.Forall₂ (fun e e' => e.1 = e'.1 ∧ e.2.settle? = some e'.2) entries settled := by
  induction entries generalizing settled with
  | nil =>
    rw [settleEntries?, Option.some.injEq, List.forall₂_nil_left_iff, eq_comm]
  | cons entry rest ih =>
    obtain ⟨key, value⟩ := entry
    rw [settleEntries?]
    constructor
    · intro h
      obtain ⟨value', hvalue, h⟩ := Option.bind_eq_some_iff.1 h
      obtain ⟨rest', hrest, heq⟩ := Option.bind_eq_some_iff.1 h
      cases heq
      exact .cons ⟨rfl, hvalue⟩ (ih.1 hrest)
    · rintro ⟨⟩
      rename_i e' rest' hentry hrest
      obtain ⟨key', value'⟩ := e'
      obtain ⟨rfl, hvalue⟩ := hentry
      simp only [hvalue, ih.2 hrest, Option.bind_eq_bind, Option.bind_some]
      rfl

theorem map_fst_settled (h : settleEntries? entries = some settled) :
    settled.map Prod.fst = entries.map Prod.fst := by
  rw [settleEntries?_eq_some_iff] at h
  induction h with
  | nil => rfl
  | cons hentry _ ih => rw [List.map_cons, List.map_cons, ih, hentry.1]

/-- The entries under some of the keys are settled like the others. -/
theorem settleEntries?_filter (known : String → Bool) (h : settleEntries? entries = some settled) :
    settleEntries? (entries.filter fun e => known e.1) =
      some (settled.filter fun e => known e.1) := by
  rw [settleEntries?_eq_some_iff] at h ⊢
  induction h with
  | nil => exact .nil
  | @cons e e' _ _ hentry _ ih =>
    rw [List.filter_cons, List.filter_cons, ← hentry.1]
    split
    · exact .cons hentry ih
    · exact ih

/-- What is a table behind its dates has been one before. -/
theorem settle?_eq_table_iff {value : Value}
    (h : value.settle? = some (.table origin settled)) :
    ∃ entries, value = .table origin entries ∧ settleEntries? entries = some settled := by
  cases value with
  | table origin' entries =>
    rw [Value.settle?] at h
    cases entries with
    | nil =>
      cases h
      exact ⟨[], rfl, rfl⟩
    | cons entry rest =>
      obtain ⟨key, value⟩ := entry
      rw [settleTable?] at h
      split at h
      · split at h <;> cases h
      · obtain ⟨value', hvalue, h⟩ := Option.bind_eq_some_iff.1 h
        obtain ⟨rest', hrest, heq⟩ := Option.bind_eq_some_iff.1 h
        cases heq
        refine ⟨_, rfl, ?_⟩
        simp only [settleEntries?, hvalue, hrest, Option.bind_eq_bind, Option.bind_some]
        rfl
  | array items =>
    rw [Value.settle?] at h
    obtain ⟨_, -, heq⟩ := Option.map_eq_some_iff.1 h
    cases heq
  | tables items =>
    rw [Value.settle?] at h
    obtain ⟨_, -, heq⟩ := Option.map_eq_some_iff.1 h
    cases heq
  | _ => cases h

/-- A table without the reserved key stands for no date. -/
theorem settle?_table (h : settleEntries? entries = some settled)
    (hkey : momentKey ∉ entries.map Prod.fst) :
    (Value.table origin entries).settle? = some (.table origin settled) := by
  rw [Value.settle?]
  cases entries with
  | nil =>
    cases h
    rfl
  | cons entry rest =>
    obtain ⟨key, value⟩ := entry
    have hne : ¬ (key == momentKey) = true := by
      rw [beq_iff_eq]
      rintro rfl
      exact hkey (List.mem_cons_self ..)
    rw [settleTable?, if_neg hne]
    obtain ⟨value', hvalue, h⟩ := Option.bind_eq_some_iff.1 h
    obtain ⟨rest', hrest, heq⟩ := Option.bind_eq_some_iff.1 h
    cases heq
    simp only [hvalue, hrest, Option.bind_eq_bind, Option.bind_some]
    rfl

end Toml

namespace Settings

open Toml (Entries Origin settleEntries? momentKey)

variable {document table entries : Entries} {settings : Settings} {known : List String}

/-! ### The keys that are reported -/

/-- The keys of a table that are not known, each once, in alphabetical order.
The two fields determine the list. -/
structure ListsUnknown (known : List String) (entries : Entries) (keys : List String) : Prop where
  increasing : keys.Pairwise (· < ·)
  mem_iff : ∀ key, key ∈ keys ↔ key ∈ entries.map Prod.fst ∧ key ∉ known

theorem pairwise_sortedKeys (hkeys : (entries.map Prod.fst).Nodup) :
    (sortedKeys entries).Pairwise (· < ·) := by
  have hsorted : (sortedKeys entries).Pairwise (· ≤ ·) := by
    have htrans (a b c : String) (hab : decide (a ≤ b) = true) (hbc : decide (b ≤ c) = true) :
        decide (a ≤ c) = true :=
      decide_eq_true (le_trans (of_decide_eq_true hab) (of_decide_eq_true hbc))
    have htotal (a b : String) : (decide (a ≤ b) || decide (b ≤ a)) = true := by
      simpa using le_total a b
    exact (List.pairwise_mergeSort htrans htotal (entries.map Prod.fst)).imp of_decide_eq_true
  have hnodup : (sortedKeys entries).Nodup := (List.mergeSort_perm _ _).nodup_iff.2 hkeys
  exact (hsorted.and hnodup).imp fun h => lt_of_le_of_ne h.1 h.2

theorem listsUnknown_unknownIn (hkeys : (entries.map Prod.fst).Nodup) :
    ListsUnknown known entries (unknownIn known entries) := by
  refine ⟨(pairwise_sortedKeys hkeys).sublist List.filter_sublist, fun key => ?_⟩
  rw [unknownIn, List.mem_filter, sortedKeys, List.mem_mergeSort]
  simp

theorem unknownIn_eq_nil (h : ∀ key ∈ entries.map Prod.fst, key ∈ known) :
    unknownIn known entries = [] := by
  rw [unknownIn, List.filter_eq_nil_iff]
  intro key hmem
  rw [sortedKeys, List.mem_mergeSort] at hmem
  simpa using h key hmem

/-! ### Documents without unknown keys -/

/-- The entries of a table under known keys, in their order and with their
values. -/
def keep (known : List String) (entries : Entries) : Entries :=
  entries.filter fun entry => known.contains entry.1

/-- The known keys of a section. -/
def sectionKeys (name : String) : List String :=
  if name = "unparse" then unparseKeys else analysisKeys

theorem sectionKeys_unparse : sectionKeys "unparse" = unparseKeys := rfl

theorem sectionKeys_analysis : sectionKeys "analysis" = analysisKeys := rfl

/-- A section without the keys that have no meaning in it. -/
def keepInSection (name : String) : Toml.Value → Toml.Value
  | .table origin entries => .table origin (keep (sectionKeys name) entries)
  | value => value

/-- A document without the keys that have no meaning.  Inside a section the keys
of that section are kept, outside the names of the sections, and nothing further
down is looked at. -/
def withoutUnknown (document : Entries) : Entries :=
  (keep topKeys document).map fun entry => (entry.1, keepInSection entry.1 entry.2)

theorem map_fst_keep (known : List String) (entries : Entries) :
    (keep known entries).map Prod.fst = (entries.map Prod.fst).filter known.contains := by
  rw [keep, List.filter_map]
  rfl

theorem map_fst_withoutUnknown (document : Entries) :
    (withoutUnknown document).map Prod.fst = (keep topKeys document).map Prod.fst := by
  rw [withoutUnknown, List.map_map]
  rfl

theorem mem_known_of_mem_keep {key : String} (h : key ∈ (keep known entries).map Prod.fst) :
    key ∈ known := by
  rw [map_fst_keep, List.mem_filter] at h
  simpa using h.2

theorem get?_keep (entries : Entries) {key : String} (h : key ∈ known) :
    Entries.get? (keep known entries) key = Entries.get? entries key := by
  rw [Entries.get?, Entries.get?, keep, List.find?_filter]
  congr 2
  funext entry
  by_cases hkey : entry.1 = key
  · simp [hkey, h]
  · simp [hkey]

theorem distinct_keep (h : entries.Distinct) : (keep known entries).Distinct :=
  ⟨h.keys.sublist (List.filter_sublist.map _), fun entry hmem =>
    h.values entry (List.mem_of_mem_filter hmem)⟩

theorem distinct_keepInSection {name : String} {value : Toml.Value} (h : value.Distinct) :
    (keepInSection name value).Distinct := by
  unfold keepInSection
  split
  · exact Toml.distinct_table_iff.2 (distinct_keep (Toml.distinct_table_iff.1 h))
  · exact h

theorem distinct_withoutUnknown (h : document.Distinct) : (withoutUnknown document).Distinct := by
  constructor
  · rw [map_fst_withoutUnknown]
    exact (distinct_keep h).keys
  · intro entry hmem
    obtain ⟨old, hold, rfl⟩ := List.mem_map.1 hmem
    exact distinct_keepInSection ((distinct_keep h).values old hold)

theorem get?_withoutUnknown {name : String} (hname : name ∈ topKeys) :
    Entries.get? (withoutUnknown document) name =
      (Entries.get? document name).map (keepInSection name) := by
  rw [← get?_keep document hname, Entries.get?, Entries.get?, withoutUnknown,
    List.find?_map, Option.map_map, Option.map_map]
  have hp : ((fun entry : String × Toml.Value => entry.1 == name) ∘
      fun entry : String × Toml.Value => (entry.1, keepInSection entry.1 entry.2)) =
      fun entry => entry.1 == name := rfl
  rw [hp]
  cases hfind : (keep topKeys document).find? fun entry => entry.1 == name with
  | none => rfl
  | some entry =>
    have hkey := List.find?_some hfind
    rw [beq_iff_eq] at hkey
    simp [hkey]

theorem sectionTable_withoutUnknown {name : String} (hname : name ∈ topKeys) :
    sectionTable (withoutUnknown document) name =
      keep (sectionKeys name) (sectionTable document name) := by
  rw [sectionTable, sectionTable, get?_withoutUnknown hname]
  cases hget : Entries.get? document name with
  | none => rfl
  | some value => cases value <;> rfl

theorem sectionsAreTables_withoutUnknown (h : SectionsAreTables document) :
    SectionsAreTables (withoutUnknown document) := by
  intro entry hmem hname
  obtain ⟨old, hold, rfl⟩ := List.mem_map.1 hmem
  obtain ⟨origin, entries, htable⟩ := h old (List.mem_of_mem_filter hold) hname
  exact ⟨origin, _, by rw [htable, keepInSection]⟩

theorem unknownKeys_withoutUnknown (document : Entries) :
    unknownKeys (withoutUnknown document) = [] := by
  have hsection (name : String) (hname : name ∈ topKeys) :
      unknownIn (sectionKeys name) (sectionTable (withoutUnknown document) name) = [] := by
    rw [sectionTable_withoutUnknown hname]
    exact unknownIn_eq_nil fun _ => mem_known_of_mem_keep
  have htop : unknownIn topKeys (withoutUnknown document) = [] :=
    unknownIn_eq_nil fun _ hkey => mem_known_of_mem_keep (map_fst_withoutUnknown document ▸ hkey)
  rw [unknownKeys, htop, ← sectionKeys_unparse, ← sectionKeys_analysis,
    hsection "unparse" (by decide), hsection "analysis" (by decide)]
  rfl

/-! ### The same settings -/

/-- Settings do not depend on unknown keys.  A choice speaks of the values under
known keys only, and these are kept. -/
theorem choice_keep_iff {unparse analysis : Entries} {before : Settings} :
    Choice (keep unparseKeys unparse) (keep analysisKeys analysis) before settings ↔
      Choice unparse analysis before settings := by
  have hindent := get?_keep unparse (by decide : "indent" ∈ unparseKeys)
  have hunresolved := get?_keep analysis (by decide : "unresolved" ∈ analysisKeys)
  have hunreachable := get?_keep analysis (by decide : "unreachable" ∈ analysisKeys)
  constructor
  · rintro ⟨hi, hu, hr⟩
    exact ⟨hindent ▸ hi, hunresolved ▸ hu, hunreachable ▸ hr⟩
  · rintro ⟨hi, hu, hr⟩
    exact ⟨hindent.symm ▸ hi, hunresolved.symm ▸ hu, hunreachable.symm ▸ hr⟩

theorem ofEntries_withoutUnknown (hdocument : document.Distinct)
    (hsections : SectionsAreTables document) (h : ofEntries document = .ok settings) :
    ofEntries (withoutUnknown document) = .ok settings := by
  rw [ofEntries_eq_ok_iff hdocument hsections] at h
  rw [ofEntries_eq_ok_iff (distinct_withoutUnknown hdocument)
      (sectionsAreTables_withoutUnknown hsections),
    sectionTable_withoutUnknown (by decide), sectionTable_withoutUnknown (by decide)]
  exact choice_keep_iff.2 h

/-! ### The table of a document -/

/-- A document whose table has tables for sections has tables for sections
itself.  The converse fails: a table that stands for a date is a table before it
is settled. -/
theorem SectionsAreTables.of_settled (htable : settleEntries? document = some table)
    (h : SectionsAreTables table) : SectionsAreTables document := by
  rw [Toml.settleEntries?_eq_some_iff] at htable
  induction htable with
  | nil => exact h
  | @cons e e' _ _ hentry _ ih =>
    obtain ⟨hsection, hsections⟩ := List.forall_mem_cons.1 h
    refine List.forall_mem_cons.2 ⟨fun hname => ?_, ih hsections⟩
    obtain ⟨origin, entries, hvalue⟩ := hsection (hentry.1 ▸ hname)
    obtain ⟨entries', hold, -⟩ := Toml.settle?_eq_table_iff (hvalue ▸ hentry.2)
    exact ⟨origin, entries', hold⟩

theorem momentKey_not_mem_sectionKeys (name : String) : momentKey ∉ sectionKeys name := by
  unfold sectionKeys
  split <;> decide

/-- A document and its table lose the same keys.  Settings are read from the
document and warnings from the table, so the theorem needs to remove keys from
both. -/
theorem settleEntries?_withoutUnknown (htable : settleEntries? document = some table)
    (hsections : SectionsAreTables table) :
    settleEntries? (withoutUnknown document) = some (withoutUnknown table) := by
  have hkept : settleEntries? (keep topKeys document) = some (keep topKeys table) :=
    Toml.settleEntries?_filter topKeys.contains htable
  have hsections : ∀ entry ∈ keep topKeys table, ∃ origin entries,
      entry.2 = .table origin entries := fun entry hmem =>
    hsections entry (List.mem_of_mem_filter hmem)
      (mem_known_of_mem_keep (List.mem_map_of_mem hmem))
  rw [Toml.settleEntries?_eq_some_iff] at hkept ⊢
  rw [withoutUnknown, withoutUnknown, List.forall₂_map_left_iff, List.forall₂_map_right_iff]
  generalize keep topKeys document = kept at hkept
  generalize keep topKeys table = kept' at hkept hsections
  induction hkept with
  | nil => exact .nil
  | @cons e e' _ _ hentry _ ih =>
    obtain ⟨⟨origin, entries, hvalue⟩, hsections⟩ := List.forall_mem_cons.1 hsections
    refine .cons ⟨hentry.1, ?_⟩ (ih hsections)
    obtain ⟨old, hold, hsettle⟩ := Toml.settle?_eq_table_iff (hvalue ▸ hentry.2)
    rw [hold, hvalue, ← hentry.1]
    exact Toml.settle?_table (Toml.settleEntries?_filter (sectionKeys e.1).contains hsettle)
      fun hmem => momentKey_not_mem_sectionKeys e.1 (mem_known_of_mem_keep hmem)

/-- The tables in the table of a document have each key once, like those of the document. -/
theorem nodup_keys_of_settled (hvalues : ∀ entry ∈ document, entry.2.Distinct)
    (htable : settleEntries? document = some table) :
    ∀ entry ∈ table, ∀ origin entries, entry.2 = .table origin entries →
      (entries.map Prod.fst).Nodup := by
  rw [Toml.settleEntries?_eq_some_iff] at htable
  induction htable with
  | nil => simp
  | @cons e e' _ _ hentry _ ih =>
    obtain ⟨hfirst, hrest⟩ := List.forall_mem_cons.1 hvalues
    refine List.forall_mem_cons.2 ⟨fun origin entries hvalue => ?_, ih hrest⟩
    obtain ⟨old, hold, hsettle⟩ := Toml.settle?_eq_table_iff (hvalue ▸ hentry.2)
    rw [Toml.map_fst_settled hsettle]
    exact (Toml.distinct_table_iff.1 (hold ▸ hfirst)).keys

theorem nodup_keys_sectionTable (hdocument : document.Distinct)
    (htable : settleEntries? document = some table) (name : String) :
    ((sectionTable table name).map Prod.fst).Nodup := by
  rw [sectionTable]
  split
  · rename_i hget
    exact nodup_keys_of_settled hdocument.values htable _ (Entries.mem_of_get? hget) _ _ rfl
  · exact List.nodup_nil

/-! ### Reports -/

theorem ofDocument_eq_ok_iff {loaded : Loaded} (htable : settleEntries? document = some table) :
    ofDocument document = .ok loaded ↔
      ofEntries document = .ok loaded.settings ∧ loaded.unknown = unknownKeys table := by
  rw [ofDocument, Except.map_eq_ok_iff, htable]
  constructor
  · rintro ⟨settings, hsettings, rfl⟩
    exact ⟨hsettings, rfl⟩
  · rintro ⟨hsettings, hunknown⟩
    exact ⟨loaded.settings, hsettings, by rw [Option.map_some, Option.getD_some, ← hunknown]⟩

/-- The warnings for the keys without meaning. -/
theorem map_warning_unknownKeys (table : Entries) :
    (unknownKeys table).map UnknownKey.warning =
      (unknownIn topKeys table).map (fun key => "Unknown config option: '" ++ key ++ "'") ++
      (unknownIn unparseKeys (sectionTable table "unparse")).map
        (fun key => "Unknown config option in [unparse]: '" ++ key ++ "'") ++
      (unknownIn analysisKeys (sectionTable table "analysis")).map
        (fun key => "Unknown config option in [analysis]: '" ++ key ++ "'") := by
  simp only [unknownKeys, List.map_append, List.map_map]
  rfl

/-- **Unknown keys are reported and change nothing.**  For a text that is accepted, whose document
has a table in which the sections are tables: the warnings name the keys of the table that are not
known, one each and in order, first outside the sections and then in each of them; without these
keys the document is accepted with the same settings and no warning; and each setting is what is
written under its key, or the standard one if there is nothing. -/
theorem unknown_keys_reported {text : String} {loaded : Loaded}
    (hread : Toml.read? text = some document) (htable : settleEntries? document = some table)
    (hsections : SectionsAreTables table) (hload : ofText text = .ok loaded) :
    (∃ outside unparse analysis,
      ListsUnknown ["unparse", "analysis"] table outside ∧
      ListsUnknown ["indent"] (sectionTable table "unparse") unparse ∧
      ListsUnknown ["unresolved", "unreachable"] (sectionTable table "analysis") analysis ∧
      loaded.warnings =
        outside.map (fun key => "Unknown config option: '" ++ key ++ "'") ++
        unparse.map (fun key => "Unknown config option in [unparse]: '" ++ key ++ "'") ++
        analysis.map (fun key => "Unknown config option in [analysis]: '" ++ key ++ "'")) ∧
    ofDocument (withoutUnknown document) = .ok ⟨loaded.settings, []⟩ ∧
    Choice (sectionTable document "unparse") (sectionTable document "analysis") standard
      loaded.settings := by
  have hdocument := Toml.read?_distinct hread
  have hold := hsections.of_settled htable
  have hdocumentLoads : ofDocument document = .ok loaded := by
    rw [ofText, hread] at hload
    exact hload
  obtain ⟨hsettings, hunknown⟩ := (ofDocument_eq_ok_iff htable).1 hdocumentLoads
  refine ⟨?warnings, ?removal, (ofEntries_eq_ok_iff hdocument hold).1 hsettings⟩
  case warnings =>
    have hkeys : (table.map Prod.fst).Nodup := Toml.map_fst_settled htable ▸ hdocument.keys
    have hsectionKeys := nodup_keys_sectionTable hdocument htable
    refine ⟨_, _, _, listsUnknown_unknownIn hkeys, listsUnknown_unknownIn (hsectionKeys "unparse"),
      listsUnknown_unknownIn (hsectionKeys "analysis"), ?_⟩
    rw [Loaded.warnings, hunknown]
    exact map_warning_unknownKeys table
  case removal =>
    rw [ofDocument_eq_ok_iff (settleEntries?_withoutUnknown htable hsections)]
    exact ⟨ofEntries_withoutUnknown hdocument hold hsettings,
      (unknownKeys_withoutUnknown table).symm⟩

/-- Unknown keys, a date among them, around a section that is empty and one with a level written as
a table. -/
theorem unknown_keys_reported_of_dates :
    let text :=
      "zeta = 1\n[unparse]\n[analysis]\nunreachable.off = \x7b\x7d\nsince = 1979-05-27\n[beta]\n"
    let document : Entries := [("zeta", .integer 1), ("unparse", .table .header []),
      ("analysis", .table .header [("unreachable", .table .dotted [("off", .table .braces [])]),
        ("since", .moment)]), ("beta", .table .header [])]
    let loaded : Loaded := ⟨⟨4, .error, .off⟩,
      [⟨none, "beta"⟩, ⟨none, "zeta"⟩, ⟨some "analysis", "since"⟩]⟩
    Toml.read? text = some document ∧ settleEntries? document = some document ∧
      SectionsAreTables document ∧ ofText text = .ok loaded ∧
      ofDocument (withoutUnknown document) = .ok ⟨loaded.settings, []⟩ := by
  have hread : Toml.read?
      "zeta = 1\n[unparse]\n[analysis]\nunreachable.off = \x7b\x7d\nsince = 1979-05-27\n[beta]\n" =
      some [("zeta", .integer 1), ("unparse", .table .header []),
        ("analysis", .table .header [("unreachable", .table .dotted [("off", .table .braces [])]),
          ("since", .moment)]), ("beta", .table .header [])] := by
    rfl
  intro text document loaded
  have htable : settleEntries? document = some document := by rfl
  have hsections : SectionsAreTables document := by
    simp [document, SectionsAreTables, topKeys]
  have hload : ofText text = .ok loaded := by
    have hunknown : unknownKeys document = loaded.unknown := by
      simp [document, loaded, unknownKeys, unknownIn, sortedKeys, sectionTable, Entries.get?,
        topKeys, unparseKeys, analysisKeys, List.mergeSort]
    rw [ofText, hread]
    exact (ofDocument_eq_ok_iff htable).2 ⟨by decide +kernel, hunknown.symm⟩
  exact ⟨hread, htable, hsections, hload,
    (unknown_keys_reported hread htable hsections hload).2.1⟩

end Settings

end StraightLine
