import StraightLine.Settings.Basic
import StraightLine.Text.Mismatch
import StraightLine.Toml.Document
import StraightLine.Toml.Settled

/-!
# Settings: reading

Settings are written as a TOML document with a table for each section.  What is absent has its
standard value, what is unknown is passed over with a warning, and a known key with a value of the
wrong type is a problem.

## Main definitions

* `Settings.Problem` — why a document holds no settings.
* `Settings.ofEntries` — the settings of a document.
* `Settings.unknownKeys` — the keys that have no meaning.
* `Settings.ofDocument`, `Settings.ofText` — both, from a document and from a text.

## Design notes

* **Problems are met in document order;** the first one is reported.
* **A section may also be an array,** which gives its settings in order.
* **Warnings look at the document with its dates settled,** so a section that stands for a date has
  no keys to warn of; its settings count nevertheless.
-/

namespace StraightLine.Settings

/-- What a setting can have to be.  Messages name the types that hold the
settings. -/
inductive Expected where
  | count
  | unparseSection
  | analysisSection
  deriving DecidableEq, Repr

/-- The description of what is expected. -/
def Expected.text : Expected → String
  | .count => "usize"
  | .unparseSection => "struct UnparseConfig"
  | .analysisSection => "struct AnalysisConfig"

/-- Why a document holds no settings. -/
inductive Problem where
  | notToml
  | invalidType (found : Found) (expected : Expected)
  | negative (n : Int)
  | unknownLevel (word : String)
  | levelNotWord
  | noLevel
  | severalLevels
  | levelNotTable (kind : String)
  | levelTableNotEmpty
  | levelArrayNotEmpty
  deriving DecidableEq

namespace Problem

/-- The text of a problem. -/
def message : Problem → String
  | .notToml => "invalid document"
  | .invalidType found expected => invalidTypeText .source found expected.text
  | .negative n => "invalid value: integer `" ++ toString n ++ "`, expected " ++ Expected.count.text
  | .unknownLevel word => unknownVariantText word (Level.all.map Level.name)
  | .levelNotWord => "wanted string or table"
  | .noLevel => "wanted exactly 1 element, found 0 elements"
  | .severalLevels => "wanted exactly 1 element, more than 1 element"
  | .levelNotTable kind => "expected table, found " ++ kind
  | .levelTableNotEmpty => "expected empty table"
  | .levelArrayNotEmpty => "expected empty array"

end Problem

/-- What a value is found to be.  A date counts as a table, and an array of
tables as an array. -/
def found : Toml.Value → Found
  | .string s => .string s
  | .integer n => .integer n
  | .float x => .float x
  | .boolean b => .boolean b
  | .moment => .map
  | .array _ => .sequence
  | .table _ _ => .map
  | .tables _ => .sequence

/-- The settings of a section, by name.  An array gives them in the order of
`names`, and has nothing to say of names that it is too short for; its items
beyond the names are passed over.  A date stands for a section without settings. -/
def sectionEntries (expected : Expected) (names : List String) :
    Toml.Value → Except Problem Toml.Entries
  | .table _ entries => .ok entries
  | .moment => .ok []
  | .array items => .ok (names.zip items)
  | .tables items => .ok (names.zip (items.map (.table .header)))
  | value => .error (.invalidType (found value) expected)

/-- A count: an integer that is not negative.  Integers of a document are signed
words, so no count is too great. -/
def readCount : Toml.Value → Except Problem Nat
  | .integer n => if n < 0 then .error (.negative n) else .ok n.toNat
  | value => .error (.invalidType (found value) .count)

/-- The level of a given name. -/
def readLevelName (word : String) : Except Problem Level :=
  match Level.ofName? word with
  | some level => .ok level
  | none => .error (.unknownLevel word)

/-- Checks that the value under the name of a level is empty.  The kind of the
value is part of the message only where it is neither a table nor an array. -/
def checkEmpty : Toml.Value → Except Problem Unit
  | .table _ entries => if entries.isEmpty then .ok () else .error .levelTableNotEmpty
  | .array items => if items.isEmpty then .ok () else .error .levelTableNotEmpty
  | .tables items => if items.isEmpty then .ok () else .error .levelArrayNotEmpty
  | .string _ => .error (.levelNotTable "string")
  | .integer _ => .error (.levelNotTable "integer")
  | .float _ => .error (.levelNotTable "float")
  | .boolean _ => .error (.levelNotTable "boolean")
  | .moment => .error (.levelNotTable "datetime")

/-- A level: its name, or a table with an empty table under the name.  The
second form is how a choice without content is written in general; the name is
judged before what stands under it. -/
def readLevel : Toml.Value → Except Problem Level
  | .string word => readLevelName word
  | .table _ [] => .error .noLevel
  | .table _ [(word, value)] => do
    let level ← readLevelName word
    checkEmpty value
    return level
  | .table _ _ => .error .severalLevels
  | _ => .error .levelNotWord

/-- The known keys of the section on source text. -/
def unparseKeys : List String := ["indent"]

/-- The known keys of the section on the checks. -/
def analysisKeys : List String := ["unresolved", "unreachable"]

/-- The settings changed by one entry of the section on source text.  An unknown
entry changes nothing, whatever its value. -/
def setUnparse (settings : Settings) (entry : String × Toml.Value) : Except Problem Settings :=
  match entry.1 with
  | "indent" => (readCount entry.2).map fun n => { settings with indent := n }
  | _ => .ok settings

/-- The settings changed by one entry of the section on the checks. -/
def setAnalysis (settings : Settings) (entry : String × Toml.Value) : Except Problem Settings :=
  match entry.1 with
  | "unresolved" => (readLevel entry.2).map fun level => { settings with unresolved := level }
  | "unreachable" => (readLevel entry.2).map fun level => { settings with unreachable := level }
  | _ => .ok settings

/-- The settings changed by one entry of a document.  Entries are taken in
document order and a section is finished before the next one begins, so the
first problem in the document is the one reported. -/
def set (settings : Settings) (entry : String × Toml.Value) : Except Problem Settings :=
  match entry.1 with
  | "unparse" => do
    let entries ← sectionEntries .unparseSection unparseKeys entry.2
    entries.foldlM setUnparse settings
  | "analysis" => do
    let entries ← sectionEntries .analysisSection analysisKeys entry.2
    entries.foldlM setAnalysis settings
  | _ => .ok settings

/-- The settings of a document: the standard ones, changed by each entry in
turn.  The keys of a table that was read are different, so no setting is changed
twice. -/
def ofEntries (document : Toml.Entries) : Except Problem Settings := document.foldlM set standard

/-! ### Unknown keys -/

/-- The known keys of a document. -/
def topKeys : List String := ["unparse", "analysis"]

/-- The keys of a table in alphabetical order, by code points.  Warnings are
given in this order and not in that of the document. -/
def sortedKeys (entries : Toml.Entries) : List String :=
  (entries.map Prod.fst).mergeSort fun a b => decide (a ≤ b)

/-- The keys of a table that are not among the known ones. -/
def unknownIn (known : List String) (entries : Toml.Entries) : List String :=
  (sortedKeys entries).filter fun key => !known.contains key

/-- The entries of a section that is written as a table.  A section in another
form has no keys to warn of. -/
def sectionTable (document : Toml.Entries) (name : String) : Toml.Entries :=
  match Toml.Entries.get? document name with
  | some (.table _ entries) => entries
  | _ => []

/-- A key without meaning, with its section unless it stands outside all sections. -/
structure UnknownKey where
  owner : Option String
  key : String
  deriving DecidableEq, Repr

/-- The warning for a key without meaning. -/
def UnknownKey.warning (unknown : UnknownKey) : String :=
  match unknown.owner with
  | none => "Unknown config option: '" ++ unknown.key ++ "'"
  | some name => "Unknown config option in [" ++ name ++ "]: '" ++ unknown.key ++ "'"

/-- The keys of a document that have no meaning: first outside the sections,
then in each of them.  A key is looked for only at the depth at which settings
stand, so nothing inside an unknown table is reported. -/
def unknownKeys (document : Toml.Entries) : List UnknownKey :=
  (unknownIn topKeys document).map (⟨none, ·⟩) ++
    (unknownIn unparseKeys (sectionTable document "unparse")).map (⟨some "unparse", ·⟩) ++
    (unknownIn analysisKeys (sectionTable document "analysis")).map (⟨some "analysis", ·⟩)

/-- Settings with the keys that were passed over.  The keys are kept apart from
the warnings about them, whose wording is for the user alone. -/
structure Loaded where
  settings : Settings
  unknown : List UnknownKey
  deriving DecidableEq

namespace Loaded

/-- The settings of a project without a document. -/
def standard : Loaded := ⟨.standard, []⟩

instance : Inhabited Loaded := ⟨standard⟩

/-- The warnings about the keys that were passed over. -/
def warnings (loaded : Loaded) : List String := loaded.unknown.map UnknownKey.warning

end Loaded

/-- The settings of a document and the keys in it that were passed over.  None
is known of a document that can not be settled: a promised date that is none
spoils the search for keys and not the settings. -/
def ofDocument (document : Toml.Entries) : Except Problem Loaded :=
  (ofEntries document).map fun settings =>
    ⟨settings, ((Toml.settleEntries? document).map unknownKeys).getD []⟩

/-- The settings that a text holds. -/
def ofText (text : String) : Except Problem Loaded :=
  match Toml.read? text with
  | none => .error .notToml
  | some document => ofDocument document

end StraightLine.Settings
