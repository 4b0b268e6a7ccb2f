/-!
# Styled text

Terminal attributes: a styled piece of text stands between the sequence that switches its attributes
on and the one that switches all attributes off.

## Design notes

* **Text that itself switches attributes off** is followed by the opening sequence again, so that
  the rest of the piece keeps its style.
* **Where styling is off nothing is written**, so plain output is the text alone.
-/

namespace StraightLine

/-- The attributes in use. -/
inductive Attribute where
  | bold
  | dimmed
  | italic
  | red
  | green
  | yellow
  | blue
  | purple
  | cyan
  deriving DecidableEq, Repr

namespace Attribute

/-- The number of an attribute. -/
def code : Attribute → String
  | .bold => "1"
  | .dimmed => "2"
  | .italic => "3"
  | .red => "31"
  | .green => "32"
  | .yellow => "33"
  | .blue => "34"
  | .purple => "35"
  | .cyan => "36"

end Attribute

namespace Styled

/-- The sequence that switches attributes on.  Several attributes share one
sequence, in the order given. -/
def opening (attributes : List Attribute) : String :=
  "\x1b[" ++ ";".intercalate (attributes.map Attribute.code) ++ "m"

/-- The sequence that switches all attributes off. -/
def closing : String := "\x1b[0m"

/-- A text with `insertion` after each closing sequence in it.  A styled text
inside a styled text is the reason: its closing sequence would switch off the
outer attributes as well. -/
def reopen (insertion : List Char) : List Char → List Char
  | '\x1b' :: '[' :: '0' :: 'm' :: rest =>
    '\x1b' :: '[' :: '0' :: 'm' :: (insertion ++ reopen insertion rest)
  | c :: rest => c :: reopen insertion rest
  | [] => []

end Styled

/-- A text with attributes, or the text alone where styling is off.  An empty
text is styled like any other, so the sequences are there whenever styling is
on. -/
def styled (color : Bool) (attributes : List Attribute) (text : String) : String :=
  if color then
    let opening := Styled.opening attributes
    opening ++ String.ofList (Styled.reopen opening.toList text.toList) ++ Styled.closing
  else text

end StraightLine
