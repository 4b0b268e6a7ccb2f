import StraightLine.Text.Unshown

/-!
# Quoted text

Text between double quotes as messages and logs show it: quotes and backslashes are escaped, and so
is every character that has no picture of its own.
-/

namespace StraightLine

namespace Quoted

/-- The lower-case hexadecimal digits of a number, without leading zeros. -/
def hexDigits (n : Nat) : String := String.ofList (Nat.toDigits 16 n)

/-- A character inside quotes.  A quotation is for reading and not for reading
back: it shows every character either as itself or by an escape. -/
def escape (c : Char) : String :=
  match c with
  | '\x00' => "\\0"
  | '\t' => "\\t"
  | '\r' => "\\r"
  | '\n' => "\\n"
  | '\\' => "\\\\"
  | '"' => "\\\""
  | c => if Unshown.contains c then "\\u\x7b" ++ hexDigits c.toNat ++ "\x7d" else c.toString

end Quoted

/-- A text between double quotes. -/
def quoted (text : String) : String :=
  "\"" ++ String.join (text.toList.map Quoted.escape) ++ "\""

end StraightLine
