import Mathlib.Data.List.TakeWhile
import Mathlib.Data.String.Basic
import StraightLine.Path

/-!
# The components of a path

A path is a text, but what it means is the list of its components.  The functions on paths are
functions on these lists.

## Main definitions

* `Path.components` — the components that lead somewhere.
* `Path.IsParent` — what a parent has in common with its path, and what it lacks.

## Main statements

* `String.splitOn_slash` — a text cut at its slashes.
* `Path.isParent_of_parent?`, `Path.components_of_parent?_eq_none` — the parent has all components
  but the last; only a path without components has no parent.
* `Path.components_directory`, `Path.splitOn_join` — the directory of a file, and a file in a
  directory.
-/

namespace String

/-- Cutting goes on from a place where the piece `m` is open.  The positions of
the string functions are bytes, so the text is given by what is before the
piece, the piece and what is behind it. -/
theorem splitOnAux_slash (l m r : List Char) (pieces : List String) :
    splitOnAux (ofList (l ++ m ++ r)) "/" ⟨utf8Len l⟩ ⟨utf8Len l + utf8Len m⟩ 0 pieces =
      pieces.reverse ++ (r.splitOnPPrepend (· == '/') m.reverse).map ofList := by
  induction r generalizing l m pieces with
  | nil =>
    have hend : Pos.Raw.atEnd (ofList (l ++ m ++ [])) ⟨utf8Len l + utf8Len m⟩ = true := by
      simp only [atEnd_iff, rawEndPos_ofList, utf8Len_append, utf8Len_nil, Nat.add_zero]
      exact Nat.le_refl _
    rw [splitOnAux.eq_1, if_pos hend, extract_of_valid l m [], List.splitOnPPrepend]
    simp
  | cons c r ih =>
    have hend : ¬ Pos.Raw.atEnd (ofList (l ++ m ++ c :: r)) ⟨utf8Len l + utf8Len m⟩ = true := by
      have := c.utf8Size_pos
      simp only [atEnd_iff, rawEndPos_ofList, utf8Len_append, utf8Len_cons, Pos.Raw.mk_le_mk]
      omega
    have hget := get_of_valid (l ++ m) (c :: r)
    have hnext := next_of_valid (l ++ m) c r
    have hslash : Pos.Raw.get "/" 0 = '/' := by decide
    rw [utf8Len_append] at hget hnext
    rw [splitOnAux.eq_1, if_neg hend, hget, hslash, List.headD_cons, List.splitOnPPrepend]
    by_cases hc : c = '/'
    · subst hc
      have hj : Pos.Raw.next "/" 0 = ⟨1⟩ := by decide
      have hjend : Pos.Raw.atEnd "/" ⟨1⟩ = true := by decide
      have htext : l ++ m ++ ['/'] ++ [] ++ r = l ++ m ++ '/' :: r := by simp
      have hpos : utf8Len (l ++ m ++ ['/']) = utf8Len l + utf8Len m + '/'.utf8Size := by
        simp [Nat.add_assoc]
      have hback : (⟨utf8Len l + utf8Len m + '/'.utf8Size⟩ : Pos.Raw).unoffsetBy ⟨1⟩ =
          ⟨utf8Len l + utf8Len m⟩ := rfl
      have h := ih (l ++ m ++ ['/']) [] (ofList m :: pieces)
      rw [htext, hpos, utf8Len_nil, Nat.add_zero] at h
      simp only [beq_self_eq_true, if_true, hnext, hj, hjend, hback, extract_of_valid, h]
      simp
    · have htext : l ++ (m ++ [c]) ++ r = l ++ m ++ c :: r := by simp
      have hpos : utf8Len l + utf8Len (m ++ [c]) = utf8Len l + utf8Len m + c.utf8Size := by
        simp [Nat.add_assoc]
      have hback : (⟨utf8Len l + utf8Len m⟩ : Pos.Raw).unoffsetBy 0 =
          ⟨utf8Len l + utf8Len m⟩ := rfl
      have h := ih l (m ++ [c]) pieces
      rw [htext, hpos] at h
      rw [if_neg (by simpa using hc), if_neg (by simpa using hc), hback, hnext, h]
      simp

theorem splitOn_slash (s : String) : s.splitOn "/" = (s.toList.splitOn '/').map ofList := by
  have h := splitOnAux_slash [] [] s.toList []
  rw [List.append_nil, List.nil_append, String.ofList_toList] at h
  exact h

end String

namespace StraightLine.Path

/-- Whether a component leads somewhere.  An empty component comes from a
doubled slash or one at an end, and `.` stays where it is. -/
def leads (component : String) : Bool := !(component == "" || component == ".")

theorem leads_iff {component : String} :
    leads component = true ↔ component ≠ "" ∧ component ≠ "." := by
  simp [leads]

/-- The components of a text, given by its characters, that lead somewhere. -/
def componentsOf (chars : List Char) : List String :=
  ((chars.splitOn '/').map String.ofList).filter leads

/-- The components of a path that lead somewhere. -/
def components (path : String) : List String := (path.splitOn "/").filter leads

theorem components_eq (path : String) : components path = componentsOf path.toList := by
  rw [components, String.splitOn_slash, componentsOf]

theorem leads_of_mem_dropLast {path : String} :
    ∀ name ∈ (components path).dropLast, leads name = true := fun _ h =>
  (List.mem_filter.1 ((List.dropLast_prefix _).subset h)).2

theorem componentsOf_append_slash (xs ys : List Char) :
    componentsOf (xs ++ '/' :: ys) = componentsOf xs ++ componentsOf ys := by
  simp only [componentsOf, List.splitOn_append_cons_self, List.map_append, List.filter_append]

theorem componentsOf_of_not_mem {xs : List Char} (h : '/' ∉ xs) :
    componentsOf xs = [String.ofList xs].filter leads := by
  rw [componentsOf, List.splitOn_eq_singleton h, List.map_singleton]

@[simp] theorem componentsOf_nil : componentsOf [] = [] :=
  componentsOf_of_not_mem (by simp)

@[simp] theorem componentsOf_dot : componentsOf ['.'] = [] :=
  componentsOf_of_not_mem (by simp)

@[simp] theorem componentsOf_cons_slash (xs : List Char) :
    componentsOf ('/' :: xs) = componentsOf xs :=
  componentsOf_append_slash [] xs

/-! ### Ends of paths -/

/-- What is trimmed from the end of a text leads nowhere.  Characters are given
in reverse, since a parent is found from the end of its path. -/
theorem componentsOf_trim (absolute : Bool) (chars : List Char) :
    componentsOf (trim absolute chars).reverse = componentsOf chars.reverse := by
  fun_induction trim absolute chars with
  | case1 rest ih => rw [ih, List.reverse_cons, componentsOf_append_slash]; simp
  | case2 rest ih => rw [ih]; simp [componentsOf_append_slash]
  | case3 => simp
  | case4 => rfl
  | case5 => rfl

theorem trim_isSuffix (absolute : Bool) (chars : List Char) : trim absolute chars <:+ chars := by
  fun_induction trim absolute chars with
  | case1 rest ih => exact ih.trans (List.suffix_cons _ _)
  | case2 rest ih => exact ih.trans (List.suffix_cons _ _)
  | case3 => exact List.nil_suffix
  | case4 => exact List.suffix_rfl
  | case5 => exact List.suffix_rfl

/-- A trimmed text ends in a component that is neither empty nor a `.` behind a slash. -/
theorem trim_ne (absolute : Bool) (chars t : List Char) :
    trim absolute chars ≠ '/' :: t ∧ trim absolute chars ≠ '.' :: '/' :: t := by
  fun_induction trim absolute chars with
  | case1 rest ih => exact ih
  | case2 rest ih => exact ih
  | case3 => simp
  | case4 => simp
  | case5 rest hslash hdot _ => exact ⟨hslash t, hdot t⟩

/-- A text without a slash has at most one component. -/
theorem dropLast_componentsOf {chars : List Char} (h : '/' ∉ chars) :
    (componentsOf chars).dropLast = [] := by
  rw [componentsOf_of_not_mem h, List.filter_cons]
  split <;> rfl

/-- Without what stands behind the last slash, a trimmed text has one component
less.  Trimming is what makes sure that something does stand there and that it
leads somewhere. -/
theorem componentsOf_dropWhile {last : List Char} (hslash : ∀ t, last ≠ '/' :: t)
    (hdot : ∀ t, last ≠ '.' :: '/' :: t) :
    componentsOf (last.dropWhile (· != '/')).reverse = (componentsOf last.reverse).dropLast := by
  by_cases h : '/' ∈ last
  · obtain ⟨name, tail, rfl, hname⟩ := List.eq_append_cons_of_mem h
    have hleads : leads (String.ofList name.reverse) = true := by
      refine leads_iff.2 ⟨fun hempty => ?_, fun hsame => ?_⟩
      · rw [← String.ofList_nil, String.ofList_inj, List.reverse_eq_nil_iff] at hempty
        exact hslash tail (by rw [hempty, List.nil_append])
      · have : name.reverse = ['.'] := String.ofList_inj.1 hsame
        exact hdot tail (by rw [List.reverse_eq_iff.1 this]; rfl)
    have hone : componentsOf name.reverse = [String.ofList name.reverse] := by
      rw [componentsOf_of_not_mem (by simpa using hname), List.filter_cons_of_pos hleads,
        List.filter_nil]
    rw [List.dropWhile_append_of_pos (by grind), List.dropWhile_cons_of_neg (by simp),
      List.reverse_append, List.reverse_cons, List.append_assoc, List.singleton_append,
      componentsOf_append_slash, componentsOf_append_slash, hone, List.dropLast_concat,
      componentsOf_nil, List.append_nil]
  · have hall : last.dropWhile (· != '/') = [] := List.dropWhile_eq_nil_iff.2 (by grind)
    rw [hall, List.reverse_nil, componentsOf_nil, dropLast_componentsOf (by simpa using h)]

/-- What stands behind the last slash of a trimmed text is not empty. -/
theorem length_dropWhile_lt {last : List Char} (hne : last ≠ []) (hslash : ∀ t, last ≠ '/' :: t) :
    (last.dropWhile (· != '/')).length < last.length := by
  obtain ⟨c, t, rfl⟩ := List.exists_cons_of_ne_nil hne
  have hc : c ≠ '/' := fun hc => hslash t (by rw [hc])
  rw [List.dropWhile_cons_of_pos (by simpa using hc)]
  exact Nat.lt_succ_of_le (List.dropWhile_suffix _).length_le

/-! ### Parents -/

/-- The parent of a path that is given by what stands behind its first slash, if it has one. -/
def parentOf (absolute : Bool) (body : List Char) : Option String :=
  match trim absolute body.reverse with
  | [] => none
  | last =>
    let rest := trim absolute (last.dropWhile (· != '/'))
    some ((if absolute then "/" else "") ++ String.ofList rest.reverse)

theorem parentOf_eq_none {absolute : Bool} {body : List Char} (h : parentOf absolute body = none) :
    componentsOf body = [] := by
  unfold parentOf at h
  split at h
  · rename_i htrim
    have hcomponents := componentsOf_trim absolute body.reverse
    rw [htrim, List.reverse_reverse] at hcomponents
    exact hcomponents.symm.trans componentsOf_nil
  · cases h

theorem parentOf_eq_some {absolute : Bool} {body : List Char} {parent : String}
    (h : parentOf absolute body = some parent) :
    ∃ rest, parent.toList = (if absolute then ['/'] else []) ++ rest ∧ rest <+: body ∧
      rest.length < body.length ∧ componentsOf rest = (componentsOf body).dropLast := by
  have hsuffix := trim_isSuffix absolute body.reverse
  have hcomponents := componentsOf_trim absolute body.reverse
  have hslash := fun t => (trim_ne absolute body.reverse t).1
  have hdot := fun t => (trim_ne absolute body.reverse t).2
  unfold parentOf at h
  split at h
  · cases h
  · rename_i hne
    obtain rfl := Option.some.inj h
    generalize trim absolute body.reverse = last at *
    rw [List.reverse_reverse] at hcomponents
    have hrest := trim_isSuffix absolute (last.dropWhile (· != '/'))
    have hprefix := List.reverse_prefix.2 ((hrest.trans (List.dropWhile_suffix _)).trans hsuffix)
    rw [List.reverse_reverse] at hprefix
    refine ⟨_, by cases absolute <;> simp, hprefix, ?_, ?_⟩
    · have := length_dropWhile_lt hne hslash
      have := hrest.length_le
      have := hsuffix.length_le
      simp only [List.length_reverse] at *
      omega
    · rw [componentsOf_trim, componentsOf_dropWhile hslash hdot, hcomponents]

/-- A path is absolute or relative, and what stands behind the slash of an
absolute one makes its parent.  After this both kinds are treated alike, as a
body with or without a slash in front. -/
theorem parent?_eq (path : String) :
    ∃ absolute body, path.toList = (if absolute then ['/'] else []) ++ body ∧
      (absolute = false → ∀ t, body ≠ '/' :: t) ∧ parent? path = parentOf absolute body := by
  unfold parent?
  split
  rename_i absolute body heq
  split at heq
  · rename_i rest hpath
    obtain ⟨rfl, rfl⟩ := Prod.mk.inj heq
    exact ⟨true, rest, hpath, nofun, rfl⟩
  · rename_i hpath
    obtain ⟨rfl, rfl⟩ := Prod.mk.inj heq
    exact ⟨false, _, rfl, fun _ => hpath, rfl⟩

theorem startsWith_slash (path : String) :
    path.startsWith "/" = (path.toList.head? == some '/') := by
  have hiff : path.startsWith "/" = true ↔ ['/'] <+: path.toList := String.startsWith_string_iff
  rw [Bool.eq_iff_iff, hiff]
  generalize path.toList = chars
  cases chars with
  | nil => simp
  | cons c t =>
    simp only [List.cons_prefix_cons, List.nil_prefix, and_true, List.head?_cons, beq_iff_eq,
      Option.some.injEq]
    exact eq_comm

/-- Only a path without components has no parent, so going up from a path passes
through every beginning of its components. -/
theorem components_of_parent?_eq_none {path : String} (h : parent? path = none) :
    components path = [] := by
  obtain ⟨absolute, body, hpath, -, hparent⟩ := parent?_eq path
  rw [components_eq, hpath]
  have hbody := parentOf_eq_none (hparent.symm.trans h)
  cases absolute <;> simpa using hbody

/-- Nothing at the beginning of a text without a leading slash has one. -/
theorem head?_beq_slash_of_prefix {rest body : List Char} (h : rest <+: body)
    (hbody : ∀ t, body ≠ '/' :: t) : (rest.head? == some '/') = (body.head? == some '/') := by
  obtain ⟨t, rfl⟩ := h
  cases rest with
  | nil =>
    cases t with
    | nil => rfl
    | cons c t => simpa using fun hc => hbody t (by rw [← hc]; rfl)
  | cons c rest => rfl

/-- What a parent has in common with its path, and what it lacks.  The
components say where it leads; that it is a shorter beginning of the path is
what makes going up end. -/
structure IsParent (parent path : String) : Prop where
  components_eq : components parent = (components path).dropLast
  startsWith_eq : parent.startsWith "/" = path.startsWith "/"
  isPrefix : parent.toList <+: path.toList
  length_lt : parent.length < path.length

theorem isParent_of_parent? {parent path : String} (h : parent? path = some parent) :
    IsParent parent path := by
  obtain ⟨absolute, body, hpath, habsolute, hparent⟩ := parent?_eq path
  obtain ⟨rest, heq, hprefix, hlt, hcomponents⟩ := parentOf_eq_some (hparent.symm.trans h)
  refine ⟨?_, ?_, ?_, ?_⟩
  · rw [components_eq, components_eq, heq, hpath]
    cases absolute <;> simpa using hcomponents
  · rw [startsWith_slash, startsWith_slash, heq, hpath]
    cases absolute with
    | true => rfl
    | false => exact head?_beq_slash_of_prefix hprefix (habsolute rfl)
  · rw [heq, hpath]
    exact (List.prefix_append_right_inj _).2 hprefix
  · rw [← String.length_toList, ← String.length_toList, heq, hpath, List.length_append,
      List.length_append]
    omega

/-! ### Directories and files in them -/

theorem components_directory (path : String) :
    components (directory path) = (components path).dropLast := by
  unfold directory
  split
  · rename_i parent hparent
    rw [← (isParent_of_parent? hparent).components_eq]
    split
    · rename_i hempty
      rw [String.isEmpty_iff.1 hempty]
      simp [components_eq]
    · rfl
  · rename_i hnone
    rw [components_of_parent?_eq_none hnone]
    simp [components_eq]

theorem startsWith_directory {path : String} (h : components path ≠ []) :
    (directory path).startsWith "/" = path.startsWith "/" := by
  unfold directory
  split
  · rename_i parent hparent
    rw [← (isParent_of_parent? hparent).startsWith_eq]
    split
    · rename_i hempty
      rw [String.isEmpty_iff.1 hempty, startsWith_slash, startsWith_slash]
      rfl
    · rfl
  · rename_i hnone
    exact absurd (components_of_parent?_eq_none hnone) h

theorem endsWith_slash_iff {path : String} :
    path.endsWith "/" = true ↔ ∃ t, path.toList = t ++ ['/'] := by
  have hiff : path.endsWith "/" = true ↔ ['/'] <:+ path.toSlice.copy.toList :=
    String.Slice.endsWith_string_iff
  rw [hiff, String.copy_toSlice]
  exact exists_congr fun t => eq_comm

/-- A file in a directory stands behind a slash, unless the directory is the
empty path.  The slash may be the one at the end of the directory. -/
theorem toList_join (path name : String) :
    path = "" ∧ join path name = name ∨
      ∃ t, (join path name).toList = t ++ '/' :: name.toList ∧
        (path.toList = t ∧ t ≠ [] ∨ path.toList = t ++ ['/']) := by
  by_cases hempty : path = ""
  · subst hempty
    exact .inl ⟨rfl, String.empty_append⟩
  right
  cases hends : path.endsWith "/" with
  | true =>
    obtain ⟨t, ht⟩ := endsWith_slash_iff.1 hends
    exact ⟨t, by simp [join, hends, ht], .inr ht⟩
  | false =>
    refine ⟨path.toList, by simp [join, hends, hempty], .inl ⟨rfl, ?_⟩⟩
    simpa using hempty

theorem join_ne_empty {path name : String} (hname : name ≠ "") : join path name ≠ "" := by
  rw [← String.toList_inj.ne, String.toList_empty]
  obtain ⟨-, hjoin⟩ | ⟨t, hjoin, -⟩ := toList_join path name
  · rwa [hjoin, ← String.toList_empty, String.toList_inj.ne]
  · rw [hjoin]
    exact List.append_ne_nil_of_right_ne_nil t (List.cons_ne_nil _ _)

theorem mem_toList_join {path name : String} {c : Char} (h : c ∈ (join path name).toList) :
    c ∈ path.toList ∨ c = '/' ∨ c ∈ name.toList := by
  obtain ⟨-, hjoin⟩ | ⟨t, hjoin, hpath⟩ := toList_join path name
  · rw [hjoin] at h
    exact .inr (.inr h)
  · rw [hjoin, List.mem_append, List.mem_cons] at h
    obtain h | h := h
    · left
      obtain ⟨hpath, -⟩ | hpath := hpath
      · rwa [hpath]
      · rw [hpath]
        exact List.mem_append_left _ h
    · exact .inr h

theorem mem_toList_directory {path : String} {c : Char} (h : c ∈ (directory path).toList) :
    c ∈ path.toList ∨ c = '.' := by
  unfold directory at h
  split at h
  · rename_i parent hparent
    split at h
    · exact .inr (by simpa using h)
    · exact .inl ((isParent_of_parent? hparent).isPrefix.subset h)
  · exact .inr (by simpa using h)

theorem splitOn_join (path : String) {name : String} (hname : '/' ∉ name.toList) :
    ∃ before, (join path name).splitOn "/" = before ++ [name] ∧
      before.filter leads = components path := by
  have hone : (name.toList.splitOn '/').map String.ofList = [name] := by
    rw [List.splitOn_eq_singleton hname, List.map_singleton, String.ofList_toList]
  obtain ⟨rfl, hjoin⟩ | ⟨t, hjoin, hpath⟩ := toList_join path name
  · exact ⟨[], by rw [hjoin, String.splitOn_slash, hone, List.nil_append],
      by simp [components_eq]⟩
  · refine ⟨(t.splitOn '/').map String.ofList, ?_, ?_⟩
    · rw [String.splitOn_slash, hjoin, List.splitOn_append_cons_self, List.map_append, hone]
    · rw [components_eq, ← componentsOf]
      obtain ⟨rfl, -⟩ | hpath := hpath
      · rfl
      · rw [hpath, componentsOf_append_slash, componentsOf_nil, List.append_nil]

theorem startsWith_join {path name : String} (hname : '/' ∉ name.toList) :
    (join path name).startsWith "/" = path.startsWith "/" := by
  obtain ⟨rfl, hjoin⟩ | ⟨t, hjoin, ⟨hpath, hne⟩ | hpath⟩ := toList_join path name
  · rw [hjoin, startsWith_slash, startsWith_slash]
    cases hchars : name.toList with
    | nil => rfl
    | cons c t =>
      have hc : c ≠ '/' := fun hc => hname (by rw [hchars, hc]; exact List.mem_cons_self ..)
      simpa using hc
  · rw [startsWith_slash, startsWith_slash, hjoin, hpath, List.head?_append,
      List.head?_eq_some_head hne]
    rfl
  · rw [startsWith_slash, startsWith_slash, hjoin, hpath, List.head?_append, List.head?_append]
    rfl

end StraightLine.Path
