import StraightLine.Proofs.DistinctKeys
import StraightLine.Proofs.Success
import StraightLine.Settings.Reading

/-!
# The settings that a document chooses

Every setting of a document is what is written under its key, or the standard one if there is
nothing, whatever else the document holds.

## Main definitions

* `CountWritten`, `LevelWritten` — which values write which counts and levels.
* `Chosen`, `Choice` — what becomes of one setting, and of all of them.
* `SectionsAreTables` — the sections that a document has are tables.

## Main statements

* `ofEntries_eq_ok_iff` — a document is accepted exactly with the settings that it chooses.

## Design notes

* **Settings are chosen from any settings, not only from the standard ones.**  So entries read one
  after the other are choices one after the other, and each of them leaves alone what the others
  choose.
-/

namespace StraightLine

namespace Toml.Entries

variable {rest : Entries} {key name : String} {value : Value}

@[simp] theorem get?_nil : get? [] name = none := rfl

@[simp] theorem get?_cons_self : get? ((key, value) :: rest) key = some value := by
  simp [get?]

theorem get?_cons_of_ne (h : key ≠ name) : get? ((key, value) :: rest) name = get? rest name := by
  rw [get?, get?, List.find?_cons_of_neg (by simpa using h)]

end Toml.Entries

namespace Settings

/-! ### What is written -/

/-- A count is written as an integer. -/
inductive CountWritten : Toml.Value → Nat → Prop where
  | integer (n : Nat) : CountWritten (.integer n) n

/-- A table or an array of any kind that holds nothing.  It is what may stand
under the name of a level that is written as a key. -/
inductive Hollow : Toml.Value → Prop where
  | table (origin : Toml.Origin) : Hollow (.table origin [])
  | array : Hollow (.array [])
  | tables : Hollow (.tables [])

/-- A level is written as its name, or as its name with nothing under it.  Both
forms come from the way in which variants without content may be spelled. -/
inductive LevelWritten : Toml.Value → Level → Prop where
  | word (level : Level) : LevelWritten (.string level.name) level
  | table {origin : Toml.Origin} {value : Toml.Value} (level : Level) :
      Hollow value → LevelWritten (.table origin [(level.name, value)]) level

theorem readCount_eq_ok_iff {value : Toml.Value} {n : Nat} :
    readCount value = .ok n ↔ CountWritten value n := by
  constructor
  · intro h
    unfold readCount at h
    split at h
    · split at h
      · cases h
      · rename_i i hi
        cases h
        obtain ⟨m, rfl⟩ := Int.eq_ofNat_of_zero_le (Int.not_lt.1 hi)
        exact .integer m
    · cases h
  · rintro ⟨⟩
    rw [readCount, if_neg (by omega)]
    rfl

theorem readLevelName_eq_ok_iff {word : String} {level : Level} :
    readLevelName word = .ok level ↔ word = level.name := by
  constructor
  · intro h
    unfold readLevelName at h
    split at h
    · rename_i hfind
      cases h
      exact (beq_iff_eq.1 (List.find?_some (p := fun l : Level => l.name == word) hfind)).symm
    · cases h
  · rintro rfl
    rw [readLevelName, Level.ofName?_name]

theorem checkEmpty_eq_ok_iff {value : Toml.Value} : checkEmpty value = .ok () ↔ Hollow value := by
  constructor
  · intro h
    unfold checkEmpty at h
    split at h
    · split at h
      · rename_i hempty
        rw [List.isEmpty_iff.1 hempty]
        exact .table _
      · cases h
    · split at h
      · rename_i hempty
        rw [List.isEmpty_iff.1 hempty]
        exact .array
      · cases h
    · split at h
      · rename_i hempty
        rw [List.isEmpty_iff.1 hempty]
        exact .tables
      · cases h
    all_goals cases h
  · rintro ⟨⟩ <;> rfl

theorem readLevel_eq_ok_iff {value : Toml.Value} {level : Level} :
    readLevel value = .ok level ↔ LevelWritten value level := by
  constructor
  · intro h
    unfold readLevel at h
    split at h
    · obtain rfl := readLevelName_eq_ok_iff.1 h
      exact .word level
    · cases h
    · obtain ⟨level', hname, h⟩ := Except.bind_eq_ok_iff.1 h
      obtain ⟨⟨⟩, hempty, heq⟩ := Except.bind_eq_ok_iff.1 h
      cases heq
      obtain rfl := readLevelName_eq_ok_iff.1 hname
      exact .table level (checkEmpty_eq_ok_iff.1 hempty)
    · cases h
    · cases h
  · intro h
    cases h with
    | word => exact readLevelName_eq_ok_iff.2 rfl
    | table _ hempty =>
      simp only [readLevel, readLevelName_eq_ok_iff.2 rfl, checkEmpty_eq_ok_iff.2 hempty, bind,
        Except.bind]
      rfl

/-! ### Choices -/

/-- A setting is the one that is written, or stays as it was if none is.  What
is written has to be of the right form; otherwise no setting is chosen and the
document is refused. -/
inductive Chosen {α : Type} (Written : Toml.Value → α → Prop) (before : α) :
    Option Toml.Value → α → Prop where
  | absent : Chosen Written before none before
  | present {value : Toml.Value} {a : α} : Written value a → Chosen Written before (some value) a

section Chosen

variable {α : Type} {Written : Toml.Value → α → Prop} {before a : α} {value : Toml.Value}

@[simp] theorem chosen_none_iff : Chosen Written before none a ↔ a = before :=
  ⟨fun h => by cases h; rfl, fun h => h ▸ .absent⟩

@[simp] theorem chosen_some_iff : Chosen Written before (some value) a ↔ Written value a :=
  ⟨fun h => by cases h; assumption, .present⟩

end Chosen

/-- The settings that the entries of the two sections make of the settings
`before`.  Each setting is chosen for itself, by what stands under its key, and
the order of the entries plays no part. -/
structure Choice (unparse analysis : Toml.Entries) (before settings : Settings) : Prop where
  indent : Chosen CountWritten before.indent (Toml.Entries.get? unparse "indent") settings.indent
  unresolved :
    Chosen LevelWritten before.unresolved (Toml.Entries.get? analysis "unresolved")
      settings.unresolved
  unreachable :
    Chosen LevelWritten before.unreachable (Toml.Entries.get? analysis "unreachable")
      settings.unreachable

section Choice

variable {unparse analysis : Toml.Entries} {before settings : Settings}

theorem choice_nil_iff : Choice [] [] before settings ↔ settings = before := by
  constructor
  · rintro ⟨hindent, hunresolved, hunreachable⟩
    rw [Toml.Entries.get?_nil, chosen_none_iff] at hindent hunresolved hunreachable
    cases settings
    cases before
    simp only [mk.injEq]
    exact ⟨hindent, hunresolved, hunreachable⟩
  · rintro rfl
    exact ⟨.absent, .absent, .absent⟩

/-- Choices of the two sections do not get in each other's way, in either order. -/
theorem choice_iff_unparse_first :
    Choice unparse analysis before settings ↔
      ∃ between, Choice unparse [] before between ∧ Choice [] analysis between settings := by
  constructor
  · rintro ⟨hindent, hunresolved, hunreachable⟩
    exact ⟨{ before with indent := settings.indent }, ⟨hindent, .absent, .absent⟩,
      ⟨.absent, hunresolved, hunreachable⟩⟩
  · rintro ⟨between, ⟨hindent, hu, hr⟩, ⟨hi, hunresolved, hunreachable⟩⟩
    rw [Toml.Entries.get?_nil, chosen_none_iff] at hu hr hi
    rw [hu] at hunresolved
    rw [hr] at hunreachable
    exact ⟨hi ▸ hindent, hunresolved, hunreachable⟩

theorem choice_iff_analysis_first :
    Choice unparse analysis before settings ↔
      ∃ between, Choice [] analysis before between ∧ Choice unparse [] between settings := by
  constructor
  · rintro ⟨hindent, hunresolved, hunreachable⟩
    exact ⟨{ settings with indent := before.indent }, ⟨.absent, hunresolved, hunreachable⟩,
      ⟨hindent, .absent, .absent⟩⟩
  · rintro ⟨between, ⟨hi, hunresolved, hunreachable⟩, ⟨hindent, hu, hr⟩⟩
    rw [Toml.Entries.get?_nil, chosen_none_iff] at hu hr hi
    rw [hi] at hindent
    exact ⟨hindent, hu ▸ hunresolved, hr ▸ hunreachable⟩

end Choice

/-! ### Sections -/

section Sections

variable {entries : Toml.Entries} {before settings : Settings} {key : String} {value : Toml.Value}

theorem setUnparse_of_ne (h : key ≠ "indent") : setUnparse before (key, value) = .ok before := by
  unfold setUnparse
  split
  · exact absurd ‹_› h
  · rfl

theorem setUnparse_indent_eq_ok_iff :
    setUnparse before ("indent", value) = .ok settings ↔
      ∃ n, CountWritten value n ∧ { before with indent := n } = settings := by
  have hset : setUnparse before ("indent", value) =
      (readCount value).map fun n => { before with indent := n } := rfl
  simp only [hset, Except.map_eq_ok_iff, readCount_eq_ok_iff]

/-- The entries of the first section, taken in order, make the choice that their
keys determine.  With a key twice the last entry would win, so the keys have to
be distinct. -/
theorem foldlM_setUnparse_eq_ok_iff (hkeys : (entries.map Prod.fst).Nodup) :
    entries.foldlM setUnparse before = .ok settings ↔ Choice entries [] before settings := by
  induction entries generalizing before with
  | nil =>
    rw [choice_nil_iff, eq_comm]
    exact ⟨Except.ok.inj, congrArg _⟩
  | cons entry rest ih =>
    obtain ⟨key, value⟩ := entry
    obtain ⟨hnew, hkeys⟩ := List.nodup_cons.1 hkeys
    rw [List.foldlM_cons]
    refine Except.bind_eq_ok_iff.trans ?_
    simp only [ih hkeys]
    by_cases hkey : key = "indent"
    · subst hkey
      have hrest := Toml.Entries.get?_eq_none_iff.2 hnew
      simp only [setUnparse_indent_eq_ok_iff]
      constructor
      · rintro ⟨_, ⟨n, hn, rfl⟩, ⟨hindent, hu, hr⟩⟩
        rw [hrest, chosen_none_iff] at hindent
        exact ⟨by simpa [hindent] using hn, hu, hr⟩
      · rintro ⟨hindent, hu, hr⟩
        rw [Toml.Entries.get?_cons_self, chosen_some_iff] at hindent
        exact ⟨_, ⟨_, hindent, rfl⟩, ⟨by rw [hrest, chosen_none_iff], hu, hr⟩⟩
    · have hget : Toml.Entries.get? ((key, value) :: rest) "indent" =
          Toml.Entries.get? rest "indent" := Toml.Entries.get?_cons_of_ne hkey
      simp only [setUnparse_of_ne hkey, Except.ok.injEq, exists_eq_left']
      exact ⟨fun ⟨hindent, hu, hr⟩ => ⟨hget ▸ hindent, hu, hr⟩,
        fun ⟨hindent, hu, hr⟩ => ⟨hget ▸ hindent, hu, hr⟩⟩

theorem setAnalysis_of_ne (hunresolved : key ≠ "unresolved") (hunreachable : key ≠ "unreachable") :
    setAnalysis before (key, value) = .ok before := by
  unfold setAnalysis
  split
  · exact absurd ‹_› hunresolved
  · exact absurd ‹_› hunreachable
  · rfl

theorem setAnalysis_unresolved_eq_ok_iff :
    setAnalysis before ("unresolved", value) = .ok settings ↔
      ∃ level, LevelWritten value level ∧ { before with unresolved := level } = settings := by
  have hset : setAnalysis before ("unresolved", value) =
      (readLevel value).map fun level => { before with unresolved := level } := rfl
  simp only [hset, Except.map_eq_ok_iff, readLevel_eq_ok_iff]

theorem setAnalysis_unreachable_eq_ok_iff :
    setAnalysis before ("unreachable", value) = .ok settings ↔
      ∃ level, LevelWritten value level ∧ { before with unreachable := level } = settings := by
  have hset : setAnalysis before ("unreachable", value) =
      (readLevel value).map fun level => { before with unreachable := level } := rfl
  simp only [hset, Except.map_eq_ok_iff, readLevel_eq_ok_iff]

theorem foldlM_setAnalysis_eq_ok_iff (hkeys : (entries.map Prod.fst).Nodup) :
    entries.foldlM setAnalysis before = .ok settings ↔ Choice [] entries before settings := by
  induction entries generalizing before with
  | nil =>
    rw [choice_nil_iff, eq_comm]
    exact ⟨Except.ok.inj, congrArg _⟩
  | cons entry rest ih =>
    obtain ⟨key, value⟩ := entry
    obtain ⟨hnew, hkeys⟩ := List.nodup_cons.1 hkeys
    rw [List.foldlM_cons]
    refine Except.bind_eq_ok_iff.trans ?_
    simp only [ih hkeys]
    have hget (name : String) (h : key ≠ name) :
        Toml.Entries.get? ((key, value) :: rest) name = Toml.Entries.get? rest name :=
      Toml.Entries.get?_cons_of_ne h
    -- Keys are distinct, so what is behind an entry says nothing about its key.
    by_cases hunresolved : key = "unresolved"
    · subst hunresolved
      have hrest := Toml.Entries.get?_eq_none_iff.2 hnew
      have hother := hget "unreachable" (by decide)
      simp only [setAnalysis_unresolved_eq_ok_iff]
      constructor
      · rintro ⟨_, ⟨level, hlevel, rfl⟩, ⟨hi, hu, hr⟩⟩
        rw [hrest, chosen_none_iff] at hu
        exact ⟨hi, by simpa [hu] using hlevel, hother ▸ hr⟩
      · rintro ⟨hi, hu, hr⟩
        rw [Toml.Entries.get?_cons_self, chosen_some_iff] at hu
        exact ⟨_, ⟨_, hu, rfl⟩, ⟨hi, by rw [hrest, chosen_none_iff], hother ▸ hr⟩⟩
    by_cases hunreachable : key = "unreachable"
    · subst hunreachable
      have hrest := Toml.Entries.get?_eq_none_iff.2 hnew
      have hother := hget "unresolved" (by decide)
      simp only [setAnalysis_unreachable_eq_ok_iff]
      constructor
      · rintro ⟨_, ⟨level, hlevel, rfl⟩, ⟨hi, hu, hr⟩⟩
        rw [hrest, chosen_none_iff] at hr
        exact ⟨hi, hother ▸ hu, by simpa [hr] using hlevel⟩
      · rintro ⟨hi, hu, hr⟩
        rw [Toml.Entries.get?_cons_self, chosen_some_iff] at hr
        exact ⟨_, ⟨_, hr, rfl⟩, ⟨hi, hother ▸ hu, by rw [hrest, chosen_none_iff]⟩⟩
    · simp only [setAnalysis_of_ne hunresolved hunreachable, Except.ok.injEq, exists_eq_left']
      exact ⟨fun ⟨hi, hu, hr⟩ => ⟨hi, hget _ hunresolved ▸ hu, hget _ hunreachable ▸ hr⟩,
        fun ⟨hi, hu, hr⟩ => ⟨hi, hget _ hunresolved ▸ hu, hget _ hunreachable ▸ hr⟩⟩

end Sections

/-! ### Documents -/

/-- The sections that a document has are tables.  A section may be absent; what
else may stand under its key, and how that is read, is left aside. -/
def SectionsAreTables (document : Toml.Entries) : Prop :=
  ∀ entry ∈ document, entry.1 ∈ topKeys → ∃ origin entries, entry.2 = .table origin entries

section Documents

variable {document rest entries : Toml.Entries} {origin : Toml.Origin} {before settings : Settings}
  {key name : String} {value : Toml.Value}

theorem sectionTable_of_get? (h : Toml.Entries.get? document name = some (.table origin entries)) :
    sectionTable document name = entries := by
  rw [sectionTable, h]

theorem sectionTable_of_get?_eq_none (h : Toml.Entries.get? document name = none) :
    sectionTable document name = [] := by
  rw [sectionTable, h]

theorem sectionTable_cons_of_ne (h : key ≠ name) :
    sectionTable ((key, value) :: rest) name = sectionTable rest name := by
  rw [sectionTable, sectionTable, Toml.Entries.get?_cons_of_ne h]

theorem set_of_ne (hunparse : key ≠ "unparse") (hanalysis : key ≠ "analysis") :
    set before (key, value) = .ok before := by
  unfold set
  split
  · exact absurd ‹_› hunparse
  · exact absurd ‹_› hanalysis
  · rfl

/-- The entries of a document, taken in order, make the choice that its sections
determine.  Entries outside of the sections change nothing. -/
theorem foldlM_set_eq_ok_iff (hdocument : document.Distinct)
    (hsections : SectionsAreTables document) :
    document.foldlM set before = .ok settings ↔
      Choice (sectionTable document "unparse") (sectionTable document "analysis") before
        settings := by
  induction document generalizing before with
  | nil =>
    refine Iff.trans ?_ choice_nil_iff.symm
    rw [eq_comm]
    exact ⟨Except.ok.inj, congrArg _⟩
  | cons entry rest ih =>
    obtain ⟨key, value⟩ := entry
    obtain ⟨hnew, hkeys⟩ := List.nodup_cons.1 hdocument.keys
    obtain ⟨hvalue, hvalues⟩ := List.forall_mem_cons.1 hdocument.values
    rw [List.foldlM_cons]
    refine Except.bind_eq_ok_iff.trans ?_
    obtain ⟨hsection, hsections⟩ := List.forall_mem_cons.1 hsections
    simp only [ih ⟨hkeys, hvalues⟩ hsections]
    -- A section is done with before the next entry, so the choice is made in two parts.
    by_cases hunparse : key = "unparse"
    · subst hunparse
      obtain ⟨origin, entries, rfl⟩ := hsection (by simp [topKeys])
      have hfold (between : Settings) :
          entries.foldlM setUnparse before = .ok between ↔ Choice entries [] before between :=
        foldlM_setUnparse_eq_ok_iff (Toml.distinct_table_iff.1 hvalue).keys
      rw [sectionTable_of_get? Toml.Entries.get?_cons_self, sectionTable_cons_of_ne (by decide),
        sectionTable_of_get?_eq_none (Toml.Entries.get?_eq_none_iff.2 hnew),
        choice_iff_unparse_first]
      exact exists_congr fun between => and_congr_left fun _ => hfold between
    by_cases hanalysis : key = "analysis"
    · subst hanalysis
      obtain ⟨origin, entries, rfl⟩ := hsection (by simp [topKeys])
      have hfold (between : Settings) :
          entries.foldlM setAnalysis before = .ok between ↔ Choice [] entries before between :=
        foldlM_setAnalysis_eq_ok_iff (Toml.distinct_table_iff.1 hvalue).keys
      rw [sectionTable_of_get? Toml.Entries.get?_cons_self, sectionTable_cons_of_ne (by decide),
        sectionTable_of_get?_eq_none (Toml.Entries.get?_eq_none_iff.2 hnew),
        choice_iff_analysis_first]
      exact exists_congr fun between => and_congr_left fun _ => hfold between
    · rw [sectionTable_cons_of_ne hunparse, sectionTable_cons_of_ne hanalysis]
      simp only [set_of_ne hunparse hanalysis, Except.ok.injEq, exists_eq_left']

/-- A document whose sections are tables is accepted exactly with the settings that it chooses. -/
theorem ofEntries_eq_ok_iff (hdocument : document.Distinct)
    (hsections : SectionsAreTables document) :
    ofEntries document = .ok settings ↔
      Choice (sectionTable document "unparse") (sectionTable document "analysis") standard
        settings :=
  foldlM_set_eq_ok_iff hdocument hsections

end Documents

end Settings

end StraightLine
