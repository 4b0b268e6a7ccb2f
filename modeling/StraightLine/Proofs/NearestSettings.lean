import StraightLine.Proofs.PathComponents
import StraightLine.Proofs.Success
import StraightLine.Settings.Discovery

/-!
# The nearest settings

The file of settings for a program is looked for beside the program, and then on the way back to
where its path starts, one component after another.

## Main definitions

* `FileTree.follow`, `Settings.placeOf` — where components lead.
* `Settings.ChosenOn` — the nearest directory with settings, among those that the beginnings of a
  way lead to.

## Main statements

* `FileTree.locate_of_entry_eq_file` — a path to a file leads through directories to a name.
* `Settings.settings_of_program` — the settings that are chosen for a program.
* `Settings.settings_of_program_depend_on_spelling` — they need not be those of the nearest
  directory above the program.

## Design notes

* **A way is a list of components, not of directories.**  Every component is taken off the path, be
  it a name or `..`, so the directories that are looked into are those that the beginnings of the
  path lead to.  Without `..` they are the directories above the program from where the path starts:
  from the root, or from the current directory.
-/

namespace StraightLine

namespace FileTree

open StraightLine.Path (leads components)

variable {tree : FileTree} {location destination : List String} {name : String}
  {names before after : List String}

/-! ### Ways -/

theorem walk_append :
    tree.walk location (before ++ after) =
      (tree.walk location before).bind fun place => tree.walk place after := by
  induction before generalizing location with
  | nil => rfl
  | cons name before ih =>
    rw [List.cons_append, walk, walk]
    split_ifs <;> first | rfl | exact ih

/-- A way that goes on starts at a directory. -/
theorem isDirectory_of_walk (h : tree.walk location (name :: names) = .ok destination) :
    tree.isDirectory location = true := by
  by_contra hnot
  rw [walk, if_pos (by simpa using hnot)] at h
  cases h

/-- Where there is no directory, every step fails alike. -/
theorem walk_cons_congr {name' : String} {names' : List String}
    (h : tree.isDirectory location = false) :
    tree.walk location (name :: names) = tree.walk location (name' :: names') := by
  simp [walk, h]

/-- Components that lead nowhere may be left out of the way to another component. -/
theorem walk_filter_leads :
    tree.walk location (before.filter leads ++ [name]) =
      tree.walk location (before ++ [name]) := by
  induction before generalizing location with
  | nil => rfl
  | cons first before ih =>
    cases hfirst : leads first with
    | true =>
      rw [List.filter_cons_of_pos hfirst, List.cons_append, List.cons_append, walk, walk]
      split_ifs <;> first | rfl | exact ih
    | false =>
      rw [List.filter_cons_of_neg (by simp [hfirst]), ih, List.cons_append]
      cases hdirectory : tree.isDirectory location with
      | true =>
        have hskip : (first == "" || first == ".") = true := by
          simpa only [leads, Bool.not_eq_eq_eq_not, Bool.not_false] using hfirst
        rw [walk, if_neg (by simp [hdirectory]), if_pos hskip]
      | false =>
        obtain ⟨next, rest, hnext⟩ := List.exists_cons_of_ne_nil
          (List.append_ne_nil_of_right_ne_nil before (List.cons_ne_nil name []))
        rw [hnext]
        exact walk_cons_congr hdirectory

/-- Where a component leads from a directory.  This is so for directories only:
from a file, or from where there is nothing, no component leads anywhere. -/
def follow (location : List String) (name : String) : List String :=
  if name = ".." then location.dropLast else location ++ [name]

/-- A way that leads somewhere leads where its components do.  The files and
directories decide whether there is a way, and have no say in where it goes. -/
theorem eq_foldl_of_walk (hnames : ∀ name ∈ names, leads name = true)
    (h : tree.walk location names = .ok destination) :
    destination = names.foldl follow location := by
  induction names generalizing location with
  | nil =>
    cases h
    rfl
  | cons name names ih =>
    obtain ⟨hname, hnames⟩ := List.forall_mem_cons.1 hnames
    have hskip : (name == "" || name == ".") = false := by simpa [leads] using hname
    have hdirectory := isDirectory_of_walk h
    rw [walk, if_neg (by simp [hdirectory]), if_neg (by simp [hskip])] at h
    rw [List.foldl_cons, follow]
    split_ifs at h with hdots hlong
    · rw [if_pos (by simpa using hdots)]
      exact ih hnames h
    · rw [if_neg (by simpa using hdots)]
      exact ih hnames h

/-- On the way to a directory, every place is a directory.  So each beginning of
the way can be followed, and settings can be looked for at its end. -/
theorem walk_of_prefix (hnames : ∀ name ∈ names, leads name = true)
    (h : tree.walk location names = .ok destination) (hdirectory : tree.isDirectory destination)
    (hbefore : before <+: names) :
    tree.walk location before = .ok (before.foldl follow location) ∧
      tree.isDirectory (before.foldl follow location) := by
  obtain ⟨after, rfl⟩ := hbefore
  rw [walk_append] at h
  obtain ⟨place, hplace, h⟩ := Except.bind_eq_ok_iff.1 h
  obtain rfl := eq_foldl_of_walk (fun name hmem => hnames name (List.mem_append_left _ hmem)) hplace
  refine ⟨hplace, ?_⟩
  cases after with
  | nil =>
    cases h
    exact hdirectory
  | cons name after => exact isDirectory_of_walk h

/-! ### Directories and files -/

theorem isDirectory_iff :
    tree.isDirectory location = true ↔
      location = [] ∨ location <+: tree.current ∨ (∃ d ∈ tree.directories, location <+: d) ∨
        ∃ file ∈ tree.files, location <+: file.1 ∧ location ≠ file.1 := by
  simp [isDirectory, List.isPrefixOf_iff_prefix, or_assoc]

/-- What stands above a directory is a directory. -/
theorem isDirectory_of_isPrefix {above : List String} (habove : above <+: location)
    (h : tree.isDirectory location = true) : tree.isDirectory above = true := by
  rw [isDirectory_iff] at h ⊢
  obtain rfl | h | ⟨d, hd, h⟩ | ⟨file, hfile, h, hne⟩ := h
  · exact .inl (List.prefix_nil.1 habove)
  · exact .inr (.inl (habove.trans h))
  · exact .inr (.inr (.inl ⟨d, hd, habove.trans h⟩))
  · refine .inr (.inr (.inr ⟨file, hfile, habove.trans h, fun heq => hne ?_⟩))
    exact h.eq_of_length_le (heq ▸ habove).length_le

/-- Whether there is a file or a directory at a location.  It is what is asked
of a candidate, so a directory with the name of a file of settings is chosen
too. -/
def occupied (tree : FileTree) (location : List String) : Bool :=
  tree.isDirectory location || (tree.fileAt? location).isSome

theorem holds_eq_occupied {path : String} (h : tree.locate path = .ok location) :
    tree.disk.holds path = tree.occupied location := by
  simp only [Disk.holds, disk, entry, h, occupied]
  cases tree.isDirectory location with
  | true => rfl
  | false => cases tree.fileAt? location <;> rfl

/-- A last step that does not lead to a directory goes to a name. -/
theorem eq_append_of_walk_singleton (h : tree.walk location [name] = .ok destination)
    (hfile : tree.isDirectory destination = false) :
    leads name = true ∧ destination = location ++ [name] := by
  have hdirectory := isDirectory_of_walk h
  rw [walk, if_neg (by simp [hdirectory])] at h
  split_ifs at h with hskip hdots hlong
  · cases h
    rw [hdirectory] at hfile
    cases hfile
  · cases h
    rw [isDirectory_of_isPrefix (List.dropLast_prefix location) hdirectory] at hfile
    cases hfile
  · cases h
    exact ⟨by simpa [leads] using hskip, rfl⟩

theorem locate_eq_ok_iff {path : String} :
    tree.locate path = .ok location ↔
      path ≠ "" ∧ '\x00' ∉ path.toList ∧ path.utf8ByteSize ≤ longestPath ∧
        tree.walk (tree.start path) (path.splitOn "/") = .ok location := by
  rw [locate]
  split_ifs with hempty hnul hlong
  · simp_all
  · simp_all [String.contains_char_eq]
  · simp only [false_iff]
    omega
  · simp_all [String.contains_char_eq]

theorem locate_relative {path : String} (hne : path ≠ "") (hnul : '\x00' ∉ path.toList)
    (hlong : path.utf8ByteSize ≤ longestPath) (hrelative : path.toList.head? ≠ some '/')
    (hwalk : tree.walk tree.current ((path.toList.splitOn '/').map String.ofList) =
      .ok location) : tree.locate path = .ok location := by
  refine locate_eq_ok_iff.2 ⟨hne, hnul, hlong, ?_⟩
  rwa [start, Path.startsWith_slash, if_neg (by simpa using hrelative), String.splitOn_slash]

/-- A path to a file goes through directories to a name.  The last component is
neither `.` nor `..`, since those lead to directories. -/
theorem locate_of_entry_eq_file {path : String} {bytes : ByteArray}
    (h : tree.entry path = .file bytes) :
    ∃ place name, tree.locate path = .ok (place ++ [name]) ∧
      components path = (components path).dropLast ++ [name] ∧
      tree.walk (tree.start path) (components path).dropLast = .ok place ∧
      tree.isDirectory place = true := by
  unfold entry at h
  split at h
  · cases h
  · rename_i destination hlocate
    split_ifs at h with hfile
    obtain ⟨-, -, -, hwalk⟩ := locate_eq_ok_iff.1 hlocate
    have hne : path.splitOn "/" ≠ [] := by
      rw [String.splitOn_slash]
      exact fun h => List.splitOn_ne_nil _ _ (List.map_eq_nil_iff.1 h)
    obtain ⟨before, name, hsplit⟩ := (List.eq_nil_or_concat' _).resolve_left hne
    rw [hsplit, ← walk_filter_leads, walk_append] at hwalk
    obtain ⟨place, hplace, hlast⟩ := Except.bind_eq_ok_iff.1 hwalk
    obtain ⟨hleads, rfl⟩ := eq_append_of_walk_singleton hlast (by simpa using hfile)
    have hcomponents : components path = before.filter leads ++ [name] := by
      rw [components, hsplit, List.filter_append, List.filter_cons_of_pos hleads, List.filter_nil]
    rw [hcomponents, List.dropLast_concat]
    exact ⟨place, name, hlocate, rfl, hplace, isDirectory_of_walk hlast⟩

end FileTree

namespace Settings

open StraightLine.Path (leads components)
open FileTree (follow)

variable {tree : FileTree}

/-- Whether a directory has an entry with the name of a file of settings.  What
the entry holds does not matter for being chosen. -/
def hasSettings (tree : FileTree) (directory : List String) : Bool :=
  tree.occupied (directory ++ [fileName])

theorem locate_candidate {directory : String} {place : List String}
    (hwalk : tree.walk (tree.start directory) (components directory) = .ok place)
    (hplace : tree.isDirectory place = true) (hnul : '\x00' ∉ directory.toList)
    (hlong : (Path.join directory fileName).utf8ByteSize ≤ FileTree.longestPath) :
    tree.locate (Path.join directory fileName) = .ok (place ++ [fileName]) := by
  have hslash : '/' ∉ fileName.toList := by decide
  have hname : '\x00' ∉ fileName.toList := by decide
  obtain ⟨before, hsplit, hbefore⟩ := Path.splitOn_join directory hslash
  have hstart : tree.start (Path.join directory fileName) = tree.start directory := by
    rw [FileTree.start, FileTree.start, Path.startsWith_join hslash]
  have hlast : tree.walk place [fileName] = .ok (place ++ [fileName]) := by
    have hshort : ¬ FileTree.longestName < fileName.utf8ByteSize := by decide
    simp only [FileTree.walk, hplace, if_neg hshort]
    rfl
  refine FileTree.locate_eq_ok_iff.2 ⟨Path.join_ne_empty (by decide), fun h => ?_, hlong, ?_⟩
  · obtain h | h | h := Path.mem_toList_join h
    · exact hnul h
    · exact absurd h (by decide)
    · exact hname h
  · rw [hstart, hsplit, ← FileTree.walk_filter_leads, hbefore, FileTree.walk_append, hwalk]
    exact hlast

/-- The chosen file is in the nearest of the directories that the beginnings of
a way lead to, as far as they have settings; none is chosen only if none of them
has.

Nearest means that every other beginning with settings is a beginning of this
one.  Where a way leads is a parameter, so that the same relation serves paths
with and without `..`. -/
inductive ChosenOn (tree : FileTree) (way : List String) (place : List String → List String) :
    Option String → Prop where
  | nearest {path : String} {before : List String} :
      tree.locate path = .ok (place before ++ [fileName]) → before <+: way →
      hasSettings tree (place before) = true →
      (∀ before', before' <+: way → hasSettings tree (place before') = true → before' <+: before) →
      ChosenOn tree way place (some path)
  | absent :
      (∀ before, before <+: way → hasSettings tree (place before) = false) →
      ChosenOn tree way place none

/-- A beginning of a way is the whole way, or goes no further than the way without its end. -/
theorem eq_or_prefix_dropLast {way before : List String} (h : before <+: way) :
    before = way ∨ before <+: way.dropLast := by
  obtain rfl | ⟨init, last, rfl⟩ := List.eq_nil_or_concat' way
  · exact .inr h
  · rwa [List.dropLast_concat, ← List.prefix_concat_iff]

/-- One step up: the directory at the end of the way, or else what is chosen on
the way to it.  It is the step of the induction along the candidates, from the
last component back. -/
theorem ChosenOn.step {way : List String} {place : List String → List String} {path : String}
    {rest : List String}
    (hpath : tree.locate path = .ok (place way ++ [fileName]))
    (hrest : hasSettings tree (place way) = false →
      ChosenOn tree way.dropLast place (rest.find? tree.disk.holds)) :
    ChosenOn tree way place ((path :: rest).find? tree.disk.holds) := by
  have hholds : tree.disk.holds path = hasSettings tree (place way) :=
    FileTree.holds_eq_occupied hpath
  cases hway : hasSettings tree (place way) with
  | true =>
    rw [List.find?_cons_of_pos (by rw [hholds, hway])]
    exact .nearest hpath List.prefix_rfl hway fun _ h _ => h
  | false =>
    rw [List.find?_cons_of_neg (by rw [hholds, hway]; exact Bool.false_ne_true)]
    have hrest := hrest hway
    generalize rest.find? tree.disk.holds = chosen at hrest
    cases hrest with
    | nearest hfound hbefore hhas hnearest =>
      refine .nearest hfound (hbefore.trans (List.dropLast_prefix way)) hhas fun _ h hhas' => ?_
      obtain rfl | h := eq_or_prefix_dropLast h
      · rw [hway] at hhas'
        cases hhas'
      · exact hnearest _ h hhas'
    | absent hnone =>
      refine .absent fun _ h => ?_
      obtain rfl | h := eq_or_prefix_dropLast h
      · exact hway
      · exact hnone _ h

/-- At the start there is one directory to choose from. -/
theorem chosenOn_nil {place : List String → List String} {path : String}
    (hpath : tree.locate path = .ok (place [] ++ [fileName])) :
    ChosenOn tree [] place ([path].find? tree.disk.holds) :=
  .step hpath fun hnone => .absent fun before h => by rwa [List.prefix_nil.1 h]

/-- Where a number of components lead from the start of a path, which is the
root for an absolute path and the current directory for a relative one. -/
def placeOf (tree : FileTree) (path : String) (before : List String) : List String :=
  before.foldl follow (tree.start path)

theorem chosenOn_ascendingWithin {bound : Nat} {directory : String}
    (hbound : directory.length < bound)
    (hway : ∀ before, before <+: components directory →
      tree.walk (tree.start directory) before = .ok (placeOf tree directory before) ∧
        tree.isDirectory (placeOf tree directory before) = true)
    (hnul : '\x00' ∉ directory.toList)
    (hlong : ∀ above ∈ Path.ascendingWithin bound directory,
      (Path.join above fileName).utf8ByteSize ≤ FileTree.longestPath) :
    ChosenOn tree (components directory) (placeOf tree directory)
      (((Path.ascendingWithin bound directory).map (Path.join · fileName)).find?
        tree.disk.holds) := by
  induction bound generalizing directory with
  | zero => exact absurd hbound (Nat.not_lt_zero _)
  | succ bound ih =>
    rw [Path.ascendingWithin] at hlong ⊢
    obtain ⟨hwalk, hdirectory⟩ := hway _ List.prefix_rfl
    cases hparent : Path.parent? directory with
    | none =>
      rw [hparent] at hlong
      have hpath := locate_candidate hwalk hdirectory hnul (hlong _ (List.mem_singleton_self _))
      rw [Path.components_of_parent?_eq_none hparent] at hpath ⊢
      exact chosenOn_nil hpath
    | some parent =>
      rw [hparent] at hlong
      have hpath := locate_candidate hwalk hdirectory hnul (hlong _ (List.mem_cons_self ..))
      have hisParent := Path.isParent_of_parent? hparent
      have hplace : placeOf tree parent = placeOf tree directory := by
        funext before
        rw [placeOf, placeOf, FileTree.start, FileTree.start, hisParent.startsWith_eq]
      have hstart : tree.start parent = tree.start directory := congrFun hplace []
      refine .step hpath fun _ => ?_
      rw [← hisParent.components_eq, ← hplace]
      refine ih (Nat.lt_of_lt_of_le hisParent.length_lt (Nat.le_of_lt_succ hbound)) ?_ ?_ ?_
      · intro before hbefore
        rw [hisParent.components_eq] at hbefore
        rw [hstart, hplace]
        exact hway before (hbefore.trans (List.dropLast_prefix _))
      · exact fun h => hnul (hisParent.isPrefix.subset h)
      · exact fun above h => hlong above (List.mem_cons_of_mem _ h)

theorem find?_chosenOn {path : String} {bytes : ByteArray} (hfile : tree.entry path = .file bytes)
    (hlong : ∀ candidate ∈ candidates (Path.directory path),
      candidate.utf8ByteSize ≤ FileTree.longestPath) :
    ChosenOn tree (components path).dropLast (placeOf tree path)
      (find? tree.disk (Path.directory path)) := by
  obtain ⟨place, name, hlocate, hcomponents, hwalk, hplace⟩ :=
    FileTree.locate_of_entry_eq_file hfile
  obtain ⟨-, hnul, -, -⟩ := FileTree.locate_eq_ok_iff.1 hlocate
  have hne : components path ≠ [] := by
    rw [hcomponents]
    exact List.append_ne_nil_of_right_ne_nil _ (List.cons_ne_nil _ _)
  have hstart : tree.start (Path.directory path) = tree.start path := by
    rw [FileTree.start, FileTree.start, Path.startsWith_directory hne]
  have hsame : placeOf tree (Path.directory path) = placeOf tree path := by
    funext before
    rw [placeOf, placeOf, hstart]
  rw [← Path.components_directory, ← hsame]
  refine chosenOn_ascendingWithin (Nat.lt_succ_self _) ?_ ?_ ?_
  · intro before hbefore
    rw [Path.components_directory] at hbefore
    rw [hstart, hsame]
    exact FileTree.walk_of_prefix Path.leads_of_mem_dropLast hwalk hplace hbefore
  · intro h
    obtain h | h := Path.mem_toList_directory h
    · exact hnul h
    · exact absurd h (by decide)
  · exact fun above h => hlong _ (List.mem_map_of_mem h)

/-! ### Paths without `..` -/

theorem foldl_follow_eq_append {location names : List String} (h : ".." ∉ names) :
    names.foldl follow location = location ++ names := by
  induction names generalizing location with
  | nil => exact (List.append_nil _).symm
  | cons name names ih =>
    obtain ⟨hname, hnames⟩ := not_or.1 (mt List.mem_cons.2 h)
    rw [List.foldl_cons, follow, if_neg (Ne.symm hname), ih hnames, List.append_assoc]
    rfl

theorem ChosenOn.congr {way : List String} {place place' : List String → List String}
    {chosen : Option String} (h : ChosenOn tree way place chosen)
    (hsame : ∀ before, before <+: way → place before = place' before) :
    ChosenOn tree way place' chosen := by
  cases h with
  | nearest hfound hbefore hhas hnearest =>
    rw [hsame _ hbefore] at hfound hhas
    refine .nearest hfound hbefore hhas fun before h hhas' => hnearest before h ?_
    rwa [hsame _ h]
  | absent hnone =>
    refine .absent fun before h => ?_
    rw [← hsame _ h]
    exact hnone before h

/-- **The settings of a program.**  The settings that are chosen for a program are those of the
nearest place that its path goes through.  For a path without `..` these places are the directory of
the program and the directories above it, up to where the path starts. -/
theorem settings_of_program {path : String} {bytes : ByteArray}
    (hfile : tree.entry path = .file bytes)
    (hlong : ∀ candidate ∈ candidates (Path.directory path),
      candidate.utf8ByteSize ≤ FileTree.longestPath) :
    ChosenOn tree (components path).dropLast (placeOf tree path)
      (find? tree.disk (Path.directory path)) ∧
    (".." ∉ components path → ∃ way name,
      tree.locate path = .ok (tree.start path ++ way ++ [name]) ∧
        ChosenOn tree way (tree.start path ++ ·) (find? tree.disk (Path.directory path))) := by
  have hchosen := find?_chosenOn hfile hlong
  refine ⟨hchosen, fun hdots => ?_⟩
  obtain ⟨place, name, hlocate, -, hwalk, hplace⟩ := FileTree.locate_of_entry_eq_file hfile
  have hsame (before : List String) (h : before <+: (components path).dropLast) :
      placeOf tree path before = tree.start path ++ before :=
    foldl_follow_eq_append fun hmem => hdots ((h.trans (List.dropLast_prefix _)).subset hmem)
  have hway := FileTree.eq_foldl_of_walk Path.leads_of_mem_dropLast hwalk
  rw [← placeOf, hsame _ List.prefix_rfl] at hway
  exact ⟨_, name, hway ▸ hlocate, hchosen.congr hsame⟩

/-- The settings of a directory above that of the program. -/
theorem settings_of_program_in_subdirectory :
    let tree : FileTree :=
      ⟨[(["home", "src", "p.json"], .empty), (["home", "sable.toml"], .empty)], [], ["home"]⟩
    tree.entry "src/p.json" = .file .empty ∧
      (∀ candidate ∈ candidates (Path.directory "src/p.json"),
        candidate.utf8ByteSize ≤ FileTree.longestPath) ∧
      ".." ∉ components "src/p.json" ∧
      ∃ way name, tree.locate "src/p.json" = .ok (tree.start "src/p.json" ++ way ++ [name]) ∧
        ChosenOn tree way (tree.start "src/p.json" ++ ·)
          (find? tree.disk (Path.directory "src/p.json")) := by
  intro tree
  have hcandidates :
      candidates (Path.directory "src/p.json") = ["src/sable.toml", "sable.toml"] := by
    decide +kernel
  have hlong : ∀ candidate ∈ candidates (Path.directory "src/p.json"),
      candidate.utf8ByteSize ≤ FileTree.longestPath := by
    rw [hcandidates]
    decide
  have hcomponents : components "src/p.json" = ["src", "p.json"] := by
    rw [Path.components_eq]
    rfl
  have hlocate : tree.locate "src/p.json" = .ok ["home", "src", "p.json"] :=
    FileTree.locate_relative (by decide) (by decide) (by decide) (by decide) rfl
  have hfile : tree.entry "src/p.json" = .file .empty := by
    rw [FileTree.entry, hlocate]
    rfl
  have hdots : ".." ∉ components "src/p.json" := by
    rw [hcomponents]
    decide
  exact ⟨hfile, hlong, hdots, (settings_of_program hfile hlong).2 hdots⟩

/-- Two spellings of one program: with `..` in it, the settings of a directory that is not above the
program are chosen; from the directory of the program itself, the settings of the root are not
found. -/
theorem settings_of_program_depend_on_spelling :
    let tree : FileTree :=
      ⟨[(["home", "a", "sable.toml"], .empty), (["sable.toml"], .empty),
        (["home", "p.json"], .empty)], [], ["home"]⟩
    tree.locate "a/../p.json" = .ok ["home", "p.json"] ∧
      tree.entry "a/../p.json" = .file .empty ∧
      ¬ ChosenOn tree ["home"] id (find? tree.disk (Path.directory "a/../p.json")) ∧
      tree.locate "p.json" = .ok ["home", "p.json"] ∧ tree.entry "p.json" = .file .empty ∧
      ¬ ChosenOn tree ["home"] id (find? tree.disk (Path.directory "p.json")) := by
  intro tree
  have hdots : tree.locate "a/../p.json" = .ok ["home", "p.json"] :=
    FileTree.locate_relative (by decide) (by decide) (by decide) (by decide) rfl
  have hplain : tree.locate "p.json" = .ok ["home", "p.json"] :=
    FileTree.locate_relative (by decide) (by decide) (by decide) (by decide) rfl
  have hbeside : tree.locate "a/sable.toml" = .ok ["home", "a", "sable.toml"] :=
    FileTree.locate_relative (by decide) (by decide) (by decide) (by decide) rfl
  -- There are no settings beside the program, by whatever name its directory is called.
  have hfree : tree.occupied ["home", "sable.toml"] = false := by decide +kernel
  have hup : tree.disk.holds "a/../sable.toml" = false :=
    (FileTree.holds_eq_occupied (FileTree.locate_relative (by decide) (by decide) (by decide)
      (by decide) rfl)).trans hfree
  have hdot : tree.disk.holds "./sable.toml" = false :=
    (FileTree.holds_eq_occupied (FileTree.locate_relative (by decide) (by decide) (by decide)
      (by decide) rfl)).trans hfree
  have hhere : tree.disk.holds "sable.toml" = false :=
    (FileTree.holds_eq_occupied (FileTree.locate_relative (by decide) (by decide) (by decide)
      (by decide) rfl)).trans hfree
  refine ⟨hdots, by rw [FileTree.entry, hdots]; rfl, ?_, hplain,
    by rw [FileTree.entry, hplain]; rfl, ?_⟩
  · have hcandidates : candidates (Path.directory "a/../p.json") =
        ["a/../sable.toml", "a/sable.toml", "sable.toml"] := by decide +kernel
    have hholds : tree.disk.holds "a/sable.toml" = true := FileTree.holds_eq_occupied hbeside
    rw [find?, hcandidates, List.find?_cons_of_neg (by simp [hup]), List.find?_cons_of_pos hholds]
    intro h
    cases h with
    | @nearest _ before hfound hbefore =>
      -- The file that is found lies in a directory that is on no way to the program.
      rw [hbeside, Except.ok.injEq] at hfound
      obtain rfl : ["home", "a"] = before := List.append_inj_left' hfound rfl
      exact absurd hbefore (by decide)
  · have hcandidates : candidates (Path.directory "p.json") = ["./sable.toml", "sable.toml"] := by
      decide +kernel
    rw [find?, hcandidates, List.find?_cons_of_neg (by simp [hdot]),
      List.find?_cons_of_neg (by simp [hhere])]
    intro h
    cases h with
    | absent hnone => exact absurd (hnone [] List.nil_prefix) (by decide +kernel)

end Settings

end StraightLine
