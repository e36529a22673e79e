/-
GemCourier/Text/Quoted.lean

Text in quotes, as the log shows values.

A quote, a backslash and the usual control characters are written with a
backslash; what cannot be shown at all is written by its code.  Paths also
escape the single quote.
-/
import GemCourier.Text.Unshown

namespace GemCourier.Text

/-- The lower-case hexadecimal digits of a number. -/
def hexadecimal (n : Nat) : String :=
  String.ofList (Nat.toDigits 16 n)

/-- How a character is written between quotes. -/
def quotedChar (single : Bool) (c : Char) : String :=
  match c with
  | '\x00' => "\\0"
  | '\t' => "\\t"
  | '\r' => "\\r"
  | '\n' => "\\n"
  | '\\' => "\\\\"
  | '\x22' => "\\\""
  | c =>
    if single && c = '\x27' then "\\'"
    else if isUnshown c then "\\u\x7b" ++ hexadecimal c.toNat ++ "\x7d"
    else c.toString

/-- A text in quotes. -/
def quotedText (text : String) : String :=
  "\"" ++ String.join (text.toList.map (quotedChar false)) ++ "\""

/-- The text of a path in quotes. -/
def quotedPath (text : String) : String :=
  "\"" ++ String.join (text.toList.map (quotedChar true)) ++ "\""

end GemCourier.Text
