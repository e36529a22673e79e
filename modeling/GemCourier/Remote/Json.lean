/-
GemCourier/Remote/Json.lean

Reading JSON.

A text is read into a value; nothing may stand behind the value but blanks.
The value of a string is missing where an escape names half of a character,
which is an error only for one who needs the string.  Numbers are kept as they
are written.
-/
import GemCourier.Text.Pieces

namespace GemCourier.Remote

/-- A JSON value.  Strings hold nothing where they spell half of a character. -/
inductive Json where
  | null
  | bool (value : Bool)
  | number (text : String)
  | string (text : Option String)
  | array (items : List Json)
  | object (members : List (Option String × Json))

namespace Json

/-- What a reader answers: what it read and what is left of the text. -/
abbrev Read (α : Type) := Option (α × List Char)

/-- Whether a character may stand between values. -/
def isSpace (c : Char) : Bool :=
  c = ' ' || c = '\n' || c = '\t' || c = '\r'

/-- The text without the blanks in front. -/
def skipSpace (text : List Char) : List Char :=
  text.dropWhile isSpace

/-! ### Strings -/

/-- The value of a hexadecimal digit. -/
def hexValue? (c : Char) : Option Nat :=
  if c.isDigit then some (c.toNat - '0'.toNat)
  else if 'a' ≤ c ∧ c ≤ 'f' then some (c.toNat - 'a'.toNat + 10)
  else if 'A' ≤ c ∧ c ≤ 'F' then some (c.toNat - 'A'.toNat + 10)
  else none

/-- The number that four hexadecimal digits spell. -/
def hexFour? : List Char → Read Nat
  | a :: b :: c :: d :: rest =>
    match hexValue? a, hexValue? b, hexValue? c, hexValue? d with
    | some a, some b, some c, some d => some (((a * 16 + b) * 16 + c) * 16 + d, rest)
    | _, _, _, _ => none
  | _ => none

/-- The character behind a backslash, other than `u`. -/
def simpleEscape? : Char → Option Char
  | '\x22' => some '\x22'
  | '\\' => some '\\'
  | '/' => some '/'
  | 'b' => some '\x08'
  | 'f' => some '\x0c'
  | 'n' => some '\n'
  | 'r' => some '\r'
  | 't' => some '\t'
  | _ => none

/-- A unit of a string: a character, or half of one. -/
inductive Unit16 where
  | whole (c : Char)
  | leading (n : Nat)
  | trailing (n : Nat)

/-- The unit a number stands for. -/
def Unit16.ofNat (n : Nat) : Unit16 :=
  if 0xD800 ≤ n ∧ n < 0xDC00 then .leading n
  else if 0xDC00 ≤ n ∧ n < 0xE000 then .trailing n
  else .whole (Char.ofNat n)

/-- The text some units spell, unless a half is left alone. -/
def Unit16.spell : List Unit16 → Option (List Char)
  | [] => some []
  | .whole c :: rest => (spell rest).map (c :: ·)
  | .leading a :: .trailing b :: rest =>
    (spell rest).map (Char.ofNat (0x10000 + (a - 0xD800) * 0x400 + (b - 0xDC00)) :: ·)
  | _ => none

/-- The units of a string up to the quote that closes it. -/
def units : Nat → List Char → Read (List Unit16)
  | 0, _ => none
  | _ + 1, [] => none
  | _ + 1, '\x22' :: rest => some ([], rest)
  | steps + 1, '\\' :: 'u' :: rest =>
    match hexFour? rest with
    | none => none
    | some (n, rest) => (units steps rest).map fun r => (Unit16.ofNat n :: r.1, r.2)
  | steps + 1, '\\' :: c :: rest =>
    match simpleEscape? c with
    | none => none
    | some c => (units steps rest).map fun r => (.whole c :: r.1, r.2)
  | steps + 1, c :: rest =>
    if c.toNat < 0x20 ∨ c = '\\' then none
    else (units steps rest).map fun r => (.whole c :: r.1, r.2)

/-- The string behind an opening quote. -/
def stringBody (text : List Char) : Read (Option String) :=
  (units (text.length + 1) text).map fun r => ((Unit16.spell r.1).map String.ofList, r.2)

/-! ### Numbers -/

/-- One digit or more. -/
def digits1 (text : List Char) : Read (List Char) :=
  match text.takeWhile Char.isDigit with
  | [] => none
  | ds => some (ds, text.dropWhile Char.isDigit)

/-- The whole part of a number, which starts with a zero only if it is zero. -/
def wholePart : List Char → Read (List Char)
  | '0' :: rest => if rest.head?.any Char.isDigit then none else some (['0'], rest)
  | text => digits1 text

/-- The fraction of a number, if there is one. -/
def fraction : List Char → Read (List Char)
  | '.' :: rest => (digits1 rest).map fun r => ('.' :: r.1, r.2)
  | text => some ([], text)

/-- The exponent of a number, if there is one. -/
def exponent : List Char → Read (List Char)
  | e :: sign :: rest =>
    if e = 'e' ∨ e = 'E' then
      if sign = '+' ∨ sign = '-' then (digits1 rest).map fun r => (e :: sign :: r.1, r.2)
      else (digits1 (sign :: rest)).map fun r => (e :: r.1, r.2)
    else some ([], e :: sign :: rest)
  | [e] => if e = 'e' ∨ e = 'E' then none else some ([], [e])
  | [] => some ([], [])

/-- A number without a sign. -/
def magnitude (text : List Char) : Read (List Char) :=
  (wholePart text).bind fun (whole, text) =>
    (fraction text).bind fun (frac, text) =>
      (exponent text).map fun (exp, text) => (whole ++ frac ++ exp, text)

/-- A number. -/
def readNumber : List Char → Read Json
  | '-' :: rest => (magnitude rest).map fun r => (.number (String.ofList ('-' :: r.1)), r.2)
  | text => (magnitude text).map fun r => (.number (String.ofList r.1), r.2)

/-! ### Values -/

/-- The text behind a word it starts with. -/
def afterWord (word : String) (text : List Char) : Option (List Char) :=
  if word.toList.isPrefixOf text then some (text.drop word.length) else none

/-- A string in quotes. -/
def quoted : List Char → Read (Option String)
  | '\x22' :: rest => stringBody rest
  | _ => none

mutual

/-- A value, within a number of steps. -/
def readValue : Nat → List Char → Read Json
  | 0, _ => none
  | steps + 1, text =>
    match skipSpace text with
    | '\x22' :: rest => (stringBody rest).map fun r => (.string r.1, r.2)
    | '[' :: rest =>
      match skipSpace rest with
      | ']' :: rest => some (.array [], rest)
      | rest => (readItems steps rest).map fun r => (.array r.1, r.2)
    | '\x7b' :: rest =>
      match skipSpace rest with
      | '\x7d' :: rest => some (.object [], rest)
      | rest => (readMembers steps rest).map fun r => (.object r.1, r.2)
    | text =>
      match afterWord "null" text, afterWord "true" text, afterWord "false" text with
      | some rest, _, _ => some (.null, rest)
      | _, some rest, _ => some (.bool true, rest)
      | _, _, some rest => some (.bool false, rest)
      | _, _, _ => readNumber text

/-- The items of an array from the first one on, with the bracket that closes it. -/
def readItems : Nat → List Char → Read (List Json)
  | 0, _ => none
  | steps + 1, text =>
    match readValue steps text with
    | none => none
    | some (item, rest) =>
      match skipSpace rest with
      | ']' :: rest => some ([item], rest)
      | ',' :: rest => (readItems steps rest).map fun r => (item :: r.1, r.2)
      | _ => none

/-- The members of an object from the first one on, with the brace that closes it. -/
def readMembers : Nat → List Char → Read (List (Option String × Json))
  | 0, _ => none
  | steps + 1, text =>
    match quoted (skipSpace text) with
    | none => none
    | some (key, rest) =>
      match skipSpace rest with
      | ':' :: rest =>
        match readValue steps rest with
        | none => none
        | some (item, rest) =>
          match skipSpace rest with
          | '\x7d' :: rest => some ([(key, item)], rest)
          | ',' :: rest => (readMembers steps rest).map fun r => ((key, item) :: r.1, r.2)
          | _ => none
      | _ => none

end

/-- The value a text spells. -/
def parse? (text : String) : Option Json :=
  match readValue (2 * text.length + 2) text.toList with
  | some (json, rest) => if skipSpace rest = [] then some json else none
  | none => none

/-! ### Records -/

/-- The text of a string that spells whole characters. -/
def text? : Json → Option String
  | string text => text
  | _ => none

/-- The texts of some named fields.  A record is an object that has each of them once, beside
any others, or an array of just these. -/
def fields? (names : List String) : Json → Option (List String)
  | array items => if items.length = names.length then items.mapM text? else none
  | object members =>
    if members.any (·.1.isNone) then none
    else names.mapM fun name =>
      match members.filter fun m => m.1 = some name with
      | [m] => m.2.text?
      | _ => none
  | _ => none

/-- The items of an array. -/
def items? : Json → Option (List Json)
  | array items => some items
  | _ => none

end Json

end GemCourier.Remote
