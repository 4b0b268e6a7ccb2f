import StraightLine.Proofs.FlowShape
import StraightLine.Proofs.Unparsing

/-!
# The lines of source text

Source text is laid out in lines: one for every action, and two for every block, which has its brace
on a line of its own at either end.  A line is indented by the number of blocks around it, and what
it says apart from that depends on the program alone.

## Main definitions

* `Line` — a line by its depth and by what stands on it.
* `Stmt.lines` — the lines of a statement, with the statements that start on them.
* `textLines` — the lines of any text.

## Main statements

* `Stmt.textAt_eq_intercalate` — a text is its lines with newlines between them.
* `Stmt.countP_opensBlock_before` — the depth of a line is the number of blocks that are open there.
* `Stmt.textAt_add_level` — a higher level puts the same blanks before every line.
* `Stmt.text_layout` — the layout as a whole, with the flow graph.

## Design notes

* **A newline for every line first.**  A block ends its statements with newlines and has none behind
  its own closing brace, so the induction is on texts with a newline at the end, where each line
  contributes the same, and the last newline is taken off once.
* **Depth is counted from the statement that is written,** the level is where it is written; only
  their sum is seen in a text.
-/

namespace StraightLine

/-- A line of the source text of a statement.  It keeps the statement that
starts on it and not its text, so that lines can be related to positions and
vertices. -/
inductive Line where
  /-- The first line of a statement, which stands at a position of the program. -/
  | opening (depth : Nat) (head : Nat × Stmt)
  /-- The last line of a block. -/
  | closing (depth : Nat)

namespace Line

/-- The number of blocks around a line.  The two lines of a block are not inside
it, so they have the depth of the block itself. -/
def depth : Line → Nat
  | .opening depth _ => depth
  | .closing depth => depth

/-- What stands on a line behind its margin. -/
def content : Line → String
  | .opening _ (_, .action a) => a.text
  | .opening _ (_, .block _) => "\x7b"
  | .closing _ => "\x7d"

/-- The statement that starts on a line, with the position of its first action. -/
def statement? : Line → Option (Nat × Stmt)
  | .opening _ head => some head
  | .closing _ => none

/-- Whether a line is that of an action. -/
def isAction : Line → Bool
  | .opening _ (_, .action _) => true
  | .opening _ (_, .block _) => false
  | .closing _ => false

/-- Whether a line is the first one of a block. -/
def opensBlock : Line → Bool
  | .opening _ (_, .action _) => false
  | .opening _ (_, .block _) => true
  | .closing _ => false

/-- Whether a line is the last one of a block. -/
def closesBlock : Line → Bool
  | .opening _ _ => false
  | .closing _ => true

section Constructors

variable (depth position : Nat) (a : Action) (body : List Stmt)

@[simp] theorem isAction_action : (opening depth (position, .action a)).isAction = true := rfl

@[simp] theorem isAction_block : (opening depth (position, .block body)).isAction = false := rfl

@[simp] theorem isAction_closing : (closing depth).isAction = false := rfl

@[simp] theorem opensBlock_action : (opening depth (position, .action a)).opensBlock = false := rfl

@[simp] theorem opensBlock_block : (opening depth (position, .block body)).opensBlock = true := rfl

@[simp] theorem opensBlock_closing : (closing depth).opensBlock = false := rfl

@[simp] theorem closesBlock_opening (head : Nat × Stmt) :
    (opening depth head).closesBlock = false := rfl

@[simp] theorem closesBlock_closing : (closing depth).closesBlock = true := rfl

end Constructors

/-- A line of a text whose outermost statement stands at a nesting level. -/
def text (indent level : Nat) (l : Line) : String := margin indent (level + l.depth) ++ l.content

end Line

/-- The lines of any text.  A text that ends in a newline has an empty last
line. -/
def textLines (text : String) : List String := (text.toList.splitOn '\n').map String.ofList

/-- Lines without newlines are the lines of the text that joins them.  An empty
list of lines has to be left out, as every text has at least one. -/
theorem textLines_intercalate {ls : List String} (hls : ∀ l ∈ ls, '\n' ∉ l.toList)
    (hne : ls ≠ []) : textLines ("\n".intercalate ls) = ls := by
  have hsplit : List.splitOn '\n' (['\n'].intercalate (ls.map String.toList)) =
      ls.map String.toList :=
    List.splitOn_intercalate '\n' (List.forall_mem_map.mpr hls) (by simpa using hne)
  have hnewline : "\n".toList = ['\n'] := rfl
  rw [textLines, String.toList_intercalate, hnewline, hsplit, List.map_map]
  simp

/-- A newline behind every line is a newline between the lines and one at the end. -/
theorem join_map_newline {ls : List String} (hne : ls ≠ []) :
    String.join (ls.map (· ++ "\n")) = "\n".intercalate ls ++ "\n" := by
  induction ls with
  | nil => exact absurd rfl hne
  | cons l rest ih =>
      cases rest with
      | nil => simp
      | cons next rest =>
          rw [List.map_cons, String.join_cons, ih (List.cons_ne_nil _ _),
            String.intercalate_cons_cons]
          simp only [String.append_assoc]

theorem margin_add (indent level depth : Nat) :
    margin indent (level + depth) = margin indent level ++ margin indent depth := by
  rw [← String.toList_inj, String.toList_append, toList_margin, toList_margin, toList_margin,
    blanks, blanks, blanks, Nat.add_mul, List.replicate_append_replicate]

/-! ## Texts without newlines -/

/-- The names in an action.  They are all that could bring a newline into its
text. -/
def Action.names (a : Action) : List String := a.target?.toList ++ a.value.reads

theorem newline_not_mem_margin (indent level : Nat) : '\n' ∉ (margin indent level).toList := by
  rw [toList_margin, blanks, List.mem_replicate]
  rintro ⟨-, h⟩
  exact absurd h (by decide)

theorem Value.newline_not_mem_text (v : Value) : '\n' ∉ v.text.toList := by
  by_cases hv : v.Finite
  · exact fun h => absurd ((isNumeric_text hv).2 _ h) (by decide)
  · cases v with
    | int n => exact absurd trivial hv
    | float x =>
        have htext : (Value.float x).text = NumberStyle.nonFiniteText x := if_neg hv
        rw [htext, NumberStyle.nonFiniteText]
        split
        · decide
        · split <;> decide

theorem Expr.newline_not_mem_text {e : Expr} (he : ∀ name ∈ e.reads, '\n' ∉ name.toList) :
    '\n' ∉ e.text.toList := by
  induction e with
  | literal v => exact v.newline_not_mem_text
  | «variable» name => exact he name (List.mem_singleton_self name)
  | binary op left right ihleft ihright =>
      have hleft := ihleft fun name h => he name (List.mem_append_left _ h)
      have hright := ihright fun name h => he name (List.mem_append_right _ h)
      have hsymbol : '\n' ∉ op.symbol.toList := by cases op <;> decide
      rw [toList_text_binary]
      simp [hleft, hright, hsymbol]

theorem Action.newline_not_mem_text {a : Action} (ha : ∀ name ∈ a.names, '\n' ∉ name.toList) :
    '\n' ∉ a.text.toList := by
  cases a with
  | assign target value =>
      have htarget : '\n' ∉ target.toList := ha target List.mem_cons_self
      have hvalue : '\n' ∉ value.text.toList :=
        Expr.newline_not_mem_text fun name h => ha name (List.mem_cons_of_mem _ h)
      rw [toList_text_assign]
      simp [htarget, hvalue]
  | ret value =>
      have hvalue : '\n' ∉ value.text.toList := Expr.newline_not_mem_text ha
      rw [toList_text_ret]
      simp [hvalue]

namespace Stmt

/-! ## The lines of a statement -/

mutual

/-- The lines of a statement that stands in `depth` blocks, its first action at
a position.  Positions are counted as in the flow graph, so the line of an
action can be found from its vertex. -/
def linesAt (depth position : Nat) : Stmt → List Line
  | .action a => [.opening depth (position, .action a)]
  | .block body =>
    .opening depth (position, .block body) ::
      (linesOfAt (depth + 1) position body ++ [.closing depth])

/-- The lines of a list of statements. -/
def linesOfAt (depth position : Nat) : List Stmt → List Line
  | [] => []
  | s :: rest => linesAt depth position s ++ linesOfAt depth (position + s.actionCount) rest

end

/-- The lines of a program. -/
def lines (program : Stmt) : List Line := program.linesAt 0 0

theorem linesAt_ne_nil (s : Stmt) (depth position : Nat) : s.linesAt depth position ≠ [] := by
  cases s <;> simp [linesAt]

/-- With a newline at the end, a text is its lines with a newline behind each of
them.  Level and depth are both variable, since the level stays the same while
the induction goes into blocks, and the depth grows. -/
theorem textAt_append_newline (indent level : Nat) :
    (∀ (s : Stmt) (depth position : Nat), s.textAt indent (level + depth) ++ "\n" =
        String.join (((s.linesAt depth position).map (Line.text indent level)).map (· ++ "\n"))) ∧
      ∀ (body : List Stmt) (depth position : Nat), textOf indent (level + depth) body =
        String.join
          (((linesOfAt depth position body).map (Line.text indent level)).map (· ++ "\n")) := by
  refine Stmt.induction ?action ?block ?nil ?cons
  case action =>
    intro a depth position
    simp [textAt, linesAt, Line.text, Line.depth, Line.content]
  case block =>
    intro body ih depth position
    rw [textAt, linesAt, Nat.add_assoc, ih (depth + 1) position]
    simp only [List.map_cons, List.map_append, List.map_nil, String.join_cons, String.join_append,
      Line.text, Line.depth, Line.content, String.append_assoc]
    simp [← String.append_assoc]
  case nil =>
    intro depth position
    simp [textOf, linesOfAt]
  case cons =>
    intro s rest ihs ihrest depth position
    rw [textOf, linesOfAt, ihs depth position, ihrest depth (position + s.actionCount),
      List.map_append, List.map_append, String.join_append]

/-- A text is its lines with newlines between them. -/
theorem textAt_eq_intercalate (s : Stmt) (indent level : Nat) :
    s.textAt indent level = "\n".intercalate (s.lines.map (Line.text indent level)) := by
  have hjoin := (textAt_append_newline indent level).1 s 0 0
  have hne : s.lines.map (Line.text indent level) ≠ [] := by
    simpa [lines] using s.linesAt_ne_nil 0 0
  rw [Nat.add_zero, ← lines, join_map_newline hne] at hjoin
  exact String.append_left_inj _ |>.mp hjoin

/-! ## What the lines say -/

/-- Every statement starts one line, in preorder.  The closing line of a block
starts none, and falls out. -/
theorem filterMap_statement?_linesAt :
    (∀ (s : Stmt) (depth position : Nat),
        (s.linesAt depth position).filterMap Line.statement? = s.preorderAt position) ∧
      ∀ (body : List Stmt) (depth position : Nat),
        (linesOfAt depth position body).filterMap Line.statement? =
          preorderAt.preorderOfAt position body := by
  refine Stmt.induction ?action ?block ?nil ?cons
  case action =>
    intro a depth position
    simp [linesAt, preorderAt, Line.statement?]
  case block =>
    intro body ih depth position
    simp [linesAt, preorderAt, Line.statement?, ih]
  case nil =>
    intro depth position
    simp [linesOfAt, preorderAt.preorderOfAt]
  case cons =>
    intro s rest ihs ihrest depth position
    simp [linesOfAt, preorderAt.preorderOfAt, ihs, ihrest]

/-- The lines of the actions hold their texts, in text order. -/
theorem map_content_linesAt :
    (∀ (s : Stmt) (depth position : Nat),
        ((s.linesAt depth position).filter Line.isAction).map Line.content =
          s.actions.map Action.text) ∧
      ∀ (body : List Stmt) (depth position : Nat),
        ((linesOfAt depth position body).filter Line.isAction).map Line.content =
          (actionsOf body).map Action.text := by
  refine Stmt.induction ?action ?block ?nil ?cons
  case action =>
    intro a depth position
    rw [linesAt, List.filter_cons_of_pos rfl, actions_action]
    rfl
  case block =>
    intro body ih depth position
    simp [linesAt, ih]
  case nil =>
    intro depth position
    simp [linesOfAt]
  case cons =>
    intro s rest ihs ihrest depth position
    simp [linesOfAt, ihs, ihrest]

/-- An action takes a line, a block two. -/
theorem length_linesAt :
    (∀ (s : Stmt) (depth position : Nat),
        (s.linesAt depth position).length = s.actionCount + 2 * s.blockCount) ∧
      ∀ (body : List Stmt) (depth position : Nat),
        (linesOfAt depth position body).length = actionCountOf body + 2 * blockCountOf body := by
  refine Stmt.induction ?action ?block ?nil ?cons
  case action =>
    intro a depth position
    simp [linesAt, blockCount]
  case block =>
    intro body ih depth position
    simp only [linesAt, List.length_cons, List.length_append, ih, List.length_nil,
      actionCount_block, blockCount]
    omega
  case nil =>
    intro depth position
    simp [linesOfAt, blockCountOf]
  case cons =>
    intro s rest ihs ihrest depth position
    simp only [linesOfAt, List.length_append, ihs, ihrest, actionCountOf_cons, blockCountOf]
    omega

/-- Only names can bring a newline into a line. -/
theorem newline_not_mem_content :
    (∀ (s : Stmt) (depth position : Nat),
        (∀ a ∈ s.actions, ∀ name ∈ a.names, '\n' ∉ name.toList) →
        ∀ l ∈ s.linesAt depth position, '\n' ∉ l.content.toList) ∧
      ∀ (body : List Stmt) (depth position : Nat),
        (∀ a ∈ actionsOf body, ∀ name ∈ a.names, '\n' ∉ name.toList) →
        ∀ l ∈ linesOfAt depth position body, '\n' ∉ l.content.toList := by
  refine Stmt.induction ?action ?block ?nil ?cons
  case action =>
    intro a depth position ha l hl
    rw [linesAt, List.mem_singleton] at hl
    rw [hl]
    exact Action.newline_not_mem_text (ha a (by simp))
  case block =>
    intro body ih depth position hbody l hl
    rw [linesAt, List.mem_cons, List.mem_append, List.mem_singleton] at hl
    rcases hl with rfl | hl | rfl
    · exact (by decide : '\n' ∉ "\x7b".toList)
    · exact ih (depth + 1) position (by simpa using hbody) l hl
    · exact (by decide : '\n' ∉ "\x7d".toList)
  case nil =>
    intro depth position _ l hl
    rw [linesOfAt] at hl
    cases hl
  case cons =>
    intro s rest ihs ihrest depth position hbody l hl
    rw [actionsOf_cons, List.forall_mem_append] at hbody
    rw [linesOfAt, List.mem_append] at hl
    rcases hl with hl | hl
    · exact ihs depth position hbody.1 l hl
    · exact ihrest depth (position + s.actionCount) hbody.2 l hl

/-! ## Depth -/

/-- Every block that opens on one of the lines closes on one of them. -/
theorem countP_opensBlock_linesAt :
    (∀ (s : Stmt) (depth position : Nat), (s.linesAt depth position).countP Line.opensBlock =
        (s.linesAt depth position).countP Line.closesBlock) ∧
      ∀ (body : List Stmt) (depth position : Nat),
        (linesOfAt depth position body).countP Line.opensBlock =
          (linesOfAt depth position body).countP Line.closesBlock := by
  refine Stmt.induction ?action ?block ?nil ?cons
  case action =>
    intro a depth position
    simp [linesAt]
  case block =>
    intro body ih depth position
    simp [linesAt, List.countP_cons, ih]
  case nil =>
    intro depth position
    simp [linesOfAt]
  case cons =>
    intro s rest ihs ihrest depth position
    simp [linesOfAt, ihs, ihrest]

/-- The blocks that are open before a line are those around it; for the last
line of a block, that block is still one of them.

The statement is about every way of cutting the list of lines in two.  The depth
at which the statement stands is added on the left, because the blocks around it
have been opened by lines that are not in the list. -/
theorem countP_opensBlock_before :
    (∀ (s : Stmt) (depth position : Nat) (before : List Line) (l : Line) (after : List Line),
        s.linesAt depth position = before ++ l :: after →
        depth + before.countP Line.opensBlock =
          before.countP Line.closesBlock + l.depth + l.closesBlock.toNat) ∧
      ∀ (body : List Stmt) (depth position : Nat) (before : List Line) (l : Line)
        (after : List Line), linesOfAt depth position body = before ++ l :: after →
        depth + before.countP Line.opensBlock =
          before.countP Line.closesBlock + l.depth + l.closesBlock.toNat := by
  refine Stmt.induction ?action ?block ?nil ?cons
  case action =>
    intro a depth position before l after h
    obtain ⟨rfl, rfl, -⟩ : before = [] ∧ l = .opening depth (position, .action a) ∧ after = [] := by
      simpa [linesAt, List.singleton_eq_append_iff] using h
    simp [Line.depth]
  case block =>
    intro body ih depth position before l after h
    rw [linesAt] at h
    cases before with
    | nil =>
        obtain ⟨rfl, -⟩ := List.cons.inj h
        simp [Line.depth]
    | cons first before =>
        obtain ⟨rfl, htail⟩ := List.cons.inj h
        rw [List.countP_cons_of_pos rfl, List.countP_cons_of_neg (by simp)]
        rcases List.append_eq_append_iff.mp htail with
          ⟨inner, rfl, hlast⟩ | ⟨inner, hbody, hlast⟩
        · -- The line is behind all lines of the body, so it is the last one.
          obtain ⟨rfl, rfl, -⟩ : inner = [] ∧ l = .closing depth ∧ after = [] := by
            simpa [List.singleton_eq_append_iff] using hlast
          have hbalanced := countP_opensBlock_linesAt.2 body (depth + 1) position
          simp only [List.append_nil, Line.depth, Line.closesBlock_closing, Bool.toNat_true]
          omega
        · -- The split is inside the body, or at its end, where the closing line comes next.
          cases inner with
          | nil =>
              obtain ⟨rfl, -⟩ : l = .closing depth ∧ after = [] := by simpa using hlast
              have hbalanced := countP_opensBlock_linesAt.2 body (depth + 1) position
              rw [hbody, List.append_nil] at hbalanced
              simp only [Line.depth, Line.closesBlock_closing, Bool.toNat_true]
              omega
          | cons l' inner =>
              obtain ⟨rfl, -⟩ := List.cons.inj hlast
              have hinner := ih (depth + 1) position before l inner hbody
              omega
  case nil =>
    intro depth position before l after h
    simp [linesOfAt] at h
  case cons =>
    intro s rest ihs ihrest depth position before l after h
    rw [linesOfAt] at h
    rcases List.append_eq_append_iff.mp h with ⟨inner, rfl, hrest⟩ | ⟨inner, hs, hrest⟩
    · -- The line is in a later statement, and the first one closes all that it opens.
      have hbalanced := countP_opensBlock_linesAt.1 s depth position
      have hinner := ihrest depth (position + s.actionCount) inner l after hrest
      rw [List.countP_append, List.countP_append]
      omega
    · cases inner with
      | nil =>
          have hbalanced := countP_opensBlock_linesAt.1 s depth position
          rw [hs, List.append_nil] at hbalanced
          have hfirst := ihrest depth (position + s.actionCount) [] l after hrest.symm
          simp only [List.countP_nil] at hfirst
          omega
      | cons l' inner =>
          obtain ⟨rfl, -⟩ := List.cons.inj hrest
          exact ihs depth position before l inner hs

/-! ## The layout -/

section OneLineNames

variable {s : Stmt} (hs : ∀ a ∈ s.actions, ∀ name ∈ a.names, '\n' ∉ name.toList)
include hs

/-- If no name breaks a line, the lines of the text are those of the statement. -/
theorem textLines_textAt (indent level : Nat) :
    textLines (s.textAt indent level) = s.lines.map (Line.text indent level) := by
  rw [textAt_eq_intercalate]
  refine textLines_intercalate (List.forall_mem_map.mpr fun l hl => ?_) ?_
  · have hcontent := newline_not_mem_content.1 s 0 0 hs l hl
    rw [Line.text, String.toList_append, List.mem_append, not_or]
    exact ⟨newline_not_mem_margin _ _, hcontent⟩
  · simpa [lines] using s.linesAt_ne_nil 0 0

/-- A higher level puts the same blanks before every line.  The text is cut into
lines, so names with newlines have to be excluded. -/
theorem textAt_add_level (indent level k : Nat) :
    s.textAt indent (level + k) =
      "\n".intercalate ((textLines (s.textAt indent level)).map (margin indent k ++ ·)) := by
  have hline : ∀ l : Line, l.text indent (level + k) = margin indent k ++ l.text indent level := by
    intro l
    rw [Line.text, Line.text, Nat.add_right_comm, Nat.add_comm (level + l.depth) k, margin_add,
      String.append_assoc]
  rw [textLines_textAt hs, textAt_eq_intercalate, List.map_map]
  exact congrArg _ (List.map_congr_left fun l _ => hline l)

end OneLineNames

/-- **The layout of source text.**  A text is the lines of the statement with newlines between them,
each behind as many blanks as its level and its depth together ask for.  The statements start on
the lines in preorder, the depth of a line is the number of blocks that are open there, and the
lines of the actions hold the texts of the vertices of the flow graph, in the order of the graph.
If no name contains a newline, a text at a higher level is the text with the same blanks before
every line, and there is one line for every action and two for every block. -/
theorem text_layout (s : Stmt) (indent level : Nat) :
    s.textAt indent level = "\n".intercalate
      (s.lines.map fun l => "".pushn ' ' ((level + l.depth) * indent) ++ l.content) ∧
    s.lines.filterMap Line.statement? = s.preorder ∧
    (∀ (before : List Line) (l : Line) (after : List Line), s.lines = before ++ l :: after →
      before.countP Line.opensBlock =
        before.countP Line.closesBlock + l.depth + l.closesBlock.toNat) ∧
    (s.lines.filter Line.isAction).map Line.content = s.flow.vertices.map Occurrence.text ∧
    ((∀ a ∈ s.actions, ∀ name ∈ a.names, '\n' ∉ name.toList) →
      (∀ k, s.textAt indent (level + k) = "\n".intercalate
        ((textLines (s.textAt indent level)).map ("".pushn ' ' (k * indent) ++ ·))) ∧
      (textLines (s.textAt indent level)).length = s.actionCount + 2 * s.blockCount) := by
  refine ⟨s.textAt_eq_intercalate indent level, filterMap_statement?_linesAt.1 s 0 0,
    fun before l after h => ?_, ?_, fun hs => ⟨textAt_add_level hs indent level, ?_⟩⟩
  · have hbefore := countP_opensBlock_before.1 s 0 0 before l after h
    rwa [Nat.zero_add] at hbefore
  · have hvertices : s.flow.vertices.map Occurrence.text = s.actions.map Action.text := by
      rw [vertices_flow, ← Occurrence.map_action_number s.actions 0, List.map_map]
      rfl
    rw [hvertices]
    exact map_content_linesAt.1 s 0 0
  · rw [textLines_textAt hs, List.length_map, lines, length_linesAt.1]

/-- A block with an action, an empty block and a block around a return, at two levels. -/
theorem text_layout_of_empty_block :
    let program : Stmt :=
      .block [.assign "x" (.literal (.int 1)), .block [], .block [.ret (.variable "x")]]
    (∀ a ∈ program.actions, ∀ name ∈ a.names, '\n' ∉ name.toList) ∧
      program.textAt 2 1 =
        "  \x7b\n    x = 1\n    \x7b\n    \x7d\n    \x7b\n      return x\n    \x7d\n  \x7d" ∧
      (textLines (program.textAt 2 1)).length = 8 ∧
      program.textAt 2 (1 + 3) = "\n".intercalate
        ((textLines (program.textAt 2 1)).map ("      " ++ ·)) := by
  intro program
  have hnames : ∀ a ∈ program.actions, ∀ name ∈ a.names, '\n' ∉ name.toList := by decide
  obtain ⟨htext, -, -, -, hlines⟩ := text_layout program 2 1
  obtain ⟨hlevel, hlength⟩ := hlines hnames
  exact ⟨hnames, htext.trans (by decide), hlength, hlevel 3⟩

end Stmt

end StraightLine
