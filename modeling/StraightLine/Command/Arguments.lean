import StraightLine.Log

/-!
# Command lines

What the words of a command line ask for.

A command line is a sequence of options, the name of a command, and the options and the operand of
that command.  Some options are accepted on both sides of the name; what stands behind it wins.

## Main definitions

* `Invocation` — a command with its operands and options.
* `Request` — an invocation, or a question about the program itself.
* `Request.parse` — the request of a command line, if it is one.

## Design notes

* **An option is a `Switch`** with a long and perhaps a short name; a table of switches says what a
  place accepts, so all places share one scan.
* **Words are looked at from left to right,** and the first that is wrong or asks for help ends the
  scan.
-/

namespace StraightLine

/-- The formats of a report. -/
inductive ReportFormat where
  | pretty
  | json
  deriving DecidableEq, Repr, Inhabited

/-- The format with a given name. -/
def ReportFormat.ofName? : String → Option ReportFormat
  | "pretty" => some .pretty
  | "json" => some .json
  | _ => none

/-- What is to be done with a program. -/
inductive Command where
  | check (format : ReportFormat) (failOnWarnings : Bool)
  | run
  | fmt (indent : Option Nat)
  | cfg (format : ReportFormat)
  deriving DecidableEq, Repr

/-- A command, the file of its program, and the options that all commands share. -/
structure Invocation where
  command : Command
  program : String
  logLevel : LogLevel
  logFile : Option String
  logJson : Bool
  noColor : Bool
  deriving DecidableEq, Repr

/-- What a command line asks for. -/
inductive Request where
  | invoke (invocation : Invocation)
  | help
  | version
  deriving DecidableEq, Repr

namespace Command

/-- The options of a command line.  Which of them a place accepts is a list, and
one that is not in the list of its place is treated like one that does not
exist. -/
inductive Switch where
  | logLevel
  | logFile
  | logJson
  | noColor
  | format
  | failOnWarnings
  | indent
  | help
  | version
  deriving DecidableEq, Repr

namespace Switch

/-- The long name of an option. -/
def long : Switch → String
  | .logLevel => "log-level"
  | .logFile => "log-file"
  | .logJson => "log-json"
  | .noColor => "no-color"
  | .format => "format"
  | .failOnWarnings => "fail-on-warnings"
  | .indent => "indent"
  | .help => "help"
  | .version => "version"

/-- The short name of an option. -/
def short? : Switch → Option Char
  | .format => some 'f'
  | .help => some 'h'
  | .version => some 'V'
  | _ => none

/-- Whether an option has a value. -/
def takesValue : Switch → Bool
  | .logLevel | .logFile | .format | .indent => true
  | _ => false

/-- The options that are accepted everywhere. -/
def shared : List Switch := [.logLevel, .logFile, .logJson, .noColor, .help]

end Switch

/-- Why a scan ended early. -/
inductive Stop where
  | wrong
  | help
  | version
  deriving DecidableEq, Repr

/-- The options found at one place.  An option that was not given is told from
one that was given with its standard value, since the place behind the name of
the command overrides the one in front of it only where it says something. -/
structure Given where
  logLevel : Option LogLevel
  logFile : Option String
  logJson : Bool
  noColor : Bool
  format : Option ReportFormat
  failOnWarnings : Bool
  indent : Option Nat
  deriving DecidableEq, Repr

namespace Given

/-- No options. -/
def none : Given := ⟨.none, .none, false, false, .none, false, .none⟩

end Given

/-- A count that fits an unsigned word of 64 bits: decimal digits, perhaps
behind a plus sign.  Zeros in front are allowed, so the number of digits does
not matter, only the value. -/
def count? (text : String) : Option Nat :=
  let digits :=
    match text.toList with
    | '+' :: ds => ds
    | ds => ds
  if digits.isEmpty || !digits.all Char.isDigit then none
  else
    let n := digits.foldl (fun n c => 10 * n + (c.toNat - '0'.toNat)) 0
    if n < UInt64.size then some n else none

/-- The options with one more; an option must not be given twice, and its value
must be valid.  Questions about the program end the scan here, so what stands
behind them on the line is never looked at. -/
def Given.add (given : Given) (switch : Switch) (value : String) : Except Stop Given :=
  let fresh {α : Type} (old : Option α) (new : Option α) (set : α → Given) : Except Stop Given :=
    match old, new with
    | .none, some a => .ok (set a)
    | _, _ => .error .wrong
  let raise (old : Bool) (set : Given) : Except Stop Given :=
    if old then .error .wrong else .ok set
  match switch with
  | .logLevel =>
    fresh given.logLevel (LogLevel.ofName? value) fun a => { given with logLevel := some a }
  | .logFile =>
    fresh given.logFile (if value.isEmpty then .none else some value) fun a =>
      { given with logFile := some a }
  | .format =>
    fresh given.format (ReportFormat.ofName? value) fun a => { given with format := some a }
  | .indent => fresh given.indent (count? value) fun a => { given with indent := some a }
  | .logJson => raise given.logJson { given with logJson := true }
  | .noColor => raise given.noColor { given with noColor := true }
  | .failOnWarnings => raise given.failOnWarnings { given with failOnWarnings := true }
  | .help => .error .help
  | .version => .error .version

/-- A word of a command line by its form.  A single hyphen is a plain word, and
so is the empty one. -/
inductive Word where
  /-- The mark behind which no word is an option. -/
  | endOfOptions
  | long (name : String) (value : Option String)
  | short (name : Char) (value : Option String)
  | plain (text : String)
  deriving DecidableEq, Repr

/-- A word by its form. -/
def Word.ofString (text : String) : Word :=
  match text.toList with
  | ['-', '-'] => .endOfOptions
  | '-' :: '-' :: cs =>
    let name := String.ofList (cs.takeWhile (· != '='))
    match cs.dropWhile (· != '=') with
    | [] => .long name none
    | _ :: value => .long name (some (String.ofList value))
  | ['-', c] => .short c none
  | '-' :: c :: '=' :: value => .short c (some (String.ofList value))
  | '-' :: c :: value => .short c (some (String.ofList value))
  | _ => .plain text

/-- What a scan of options has found when it comes to a plain word or to the
end.  Whether options have ended matters to what follows: behind the mark that
ends them every word is an operand, whatever its form. -/
structure Scan where
  given : Given
  /-- The words from the first plain one on. -/
  rest : List String
  /-- Whether options have ended. -/
  ended : Bool

/-- The options at the start of a command line, of those that are accepted.  A
value is attached to its option or is the next word, which then has to be a
plain one; an option without value must not have one attached.  Short options
are not bundled, but a question about the program is answered whatever is
attached to its letter. -/
def scan (accepted : List Switch) : Given → List String → Except Stop Scan
  | given, [] => .ok ⟨given, [], false⟩
  | given, text :: rest =>
    let option (switch? : Option Switch) (attached : Option String) : Except Stop Scan :=
      match switch? with
      | none => .error .wrong
      | some switch =>
        match switch.takesValue, attached with
        | true, some value => do
          let given ← given.add switch value
          scan accepted given rest
        -- The value is the next word, which may not look like an option.
        | true, none =>
          match rest with
          | [] => .error .wrong
          | value :: rest =>
            match Word.ofString value with
            | .plain value => do
              let given ← given.add switch value
              scan accepted given rest
            | _ => .error .wrong
        | false, none => do
          let given ← given.add switch ""
          scan accepted given rest
        | false, some _ => .error .wrong
    match Word.ofString text with
    | .endOfOptions => .ok ⟨given, rest, true⟩
    | .plain _ => .ok ⟨given, text :: rest, false⟩
    | .long name value => option (accepted.find? (·.long == name)) value
    | .short name value =>
      match accepted.find? (·.short? == some name) with
      | some .help => .error .help
      | some .version => .error .version
      | switch? => option switch? value

/-- The options and the operand of a command.  Options can stand on both sides
of the operand, and one that is given on both sides is given twice; behind the
mark that ends options there is the operand and nothing else. -/
def scanOperand (accepted : List Switch) (words : List String) : Except Stop (Given × String) := do
  let before ← scan accepted .none words
  match before.rest with
  | [] => throw .wrong
  | operand :: rest =>
    if operand.isEmpty then throw .wrong
    if before.ended then
      if rest.isEmpty then return (before.given, operand) else throw .wrong
    else
      let behind ← scan accepted before.given rest
      if behind.rest.isEmpty then return (behind.given, operand) else throw .wrong

/-- The options that a command accepts besides those that all accept; nothing if there is no command
of that name. -/
def switches? : String → Option (List Switch)
  | "check" => some [.format, .failOnWarnings]
  | "run" => some []
  | "fmt" => some [.indent]
  | "cfg" => some [.format]
  | _ => none

/-- The command of a name with the options given to it. -/
def ofGiven? (name : String) (given : Given) : Option Command :=
  match name with
  | "check" => some (.check (given.format.getD .pretty) given.failOnWarnings)
  | "run" => some .run
  | "fmt" => some (.fmt given.indent)
  | "cfg" => some (.cfg (given.format.getD .pretty))
  | _ => none

end Command

namespace Request

open Command

/-- The invocation of a command from the options on both sides of its name.  For
an option with a value the inner one wins; a flag is up if it is raised on
either side. -/
def invocation (command : Command) (program : String) (outer inner : Given) : Invocation :=
  { command
    program
    logLevel := (inner.logLevel.or outer.logLevel).getD .warn
    logFile := inner.logFile.or outer.logFile
    logJson := inner.logJson || outer.logJson
    noColor := inner.noColor || outer.noColor }

/-- The request behind the options in front of the name of a command.  The word
`help` is a command as well, which knows the names of the others and its own. -/
def parseCommand (outer : Given) : List String → Except Stop Request
  | [] => .error .wrong
  | name :: words =>
    if name == "help" then
      match words with
      | [] => .error .help
      | [topic] =>
        if (switches? topic).isSome || topic == "help" then .error .help else .error .wrong
      | _ => .error .wrong
    else
      match switches? name with
      | none => .error .wrong
      | some own => do
        let (inner, program) ← scanOperand (own ++ Switch.shared) words
        match ofGiven? name inner with
        | some command => return .invoke (invocation command program outer inner)
        | none => throw .wrong

/-- The request of a command line; nothing if it is not a valid one.  The mark
that ends options can not stand in front of the name of a command, as no word
behind it is read as one. -/
def parse (words : List String) : Option Request :=
  let parsed : Except Stop Request := do
    let outer ← scan (Switch.shared ++ [.version]) .none words
    if outer.ended then throw .wrong
    parseCommand outer.given outer.rest
  match parsed with
  | .ok request => some request
  | .error .help => some .help
  | .error .version => some .version
  | .error .wrong => none

end Request

end StraightLine
