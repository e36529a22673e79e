/-
GemCourier/Yaml/Cursor.lean

A place in a YAML text, and the classes of characters YAML tells apart.

A cursor knows what is left of the text, how far it has come, its line and
column, and whether it has met nothing but blanks since the line began.  The
end of the text reads as a NUL character, and so does a NUL in the text: both
end the stream.
-/

namespace GemCourier.Yaml

/-! ### Characters -/

/-- What the end of the text reads as. -/
def ending : Char := '\x00'

/-- Whether a character ends a line. -/
def isBreak (c : Char) : Bool := c = '\n' || c = '\r'

/-- Whether a character ends a line or the text. -/
def isBreakOrEnd (c : Char) : Bool := isBreak c || c = ending

/-- Whether a character is a space or a tab. -/
def isBlank (c : Char) : Bool := c = ' ' || c = '\t'

/-- Whether nothing that counts stands at a character. -/
def isGap (c : Char) : Bool := isBlank c || isBreakOrEnd c

/-- Whether a character has a meaning between brackets. -/
def isFlow (c : Char) : Bool :=
  c = ',' || c = '[' || c = ']' || c = '\x7b' || c = '\x7d'

/-- Whether a character can stand in the name of a directive or a tag handle. -/
def isWord (c : Char) : Bool := c.isAlphanum || c = '_' || c = '-'

/-- Whether a character can stand in the name of an anchor. -/
def isAnchor (c : Char) : Bool :=
  !(isGap c || isFlow c || c = '\uFEFF')

/-- Whether a character can stand in the address a tag is short for. -/
def isUri (c : Char) : Bool :=
  c.isAlphanum || c = '-' || "#;/?:@&=+$,_.!~*'()[]%".toList.contains c

/-- Whether a character can stand behind the handle of a tag. -/
def isTag (c : Char) : Bool :=
  isUri c && !isFlow c && c ≠ '!'

/-- The value of a hexadecimal digit. -/
def hexValue? (c : Char) : Option Nat :=
  if c.isDigit then some (c.toNat - '0'.toNat)
  else if 'a' ≤ c ∧ c ≤ 'f' then some (c.toNat - 'a'.toNat + 10)
  else if 'A' ≤ c ∧ c ≤ 'F' then some (c.toNat - 'A'.toNat + 10)
  else none

/-- The number that hexadecimal digits spell. -/
def hexNumber? (digits : List Char) : Option Nat :=
  digits.foldl (fun n? c => n?.bind fun n => (hexValue? c).map (n * 16 + ·)) (some 0)

/-- The character with a code, if there is one. -/
def char? (code : Nat) : Option Char :=
  if code < 0xD800 ∨ (0xE000 ≤ code ∧ code < 0x110000) then some (Char.ofNat code) else none

/-! ### Cursors -/

/-- A place in a text. -/
structure Cursor where
  rest : List Char
  index : Nat
  line : Nat
  column : Nat
  /-- Whether only blanks stand before the place on its line. -/
  fresh : Bool

namespace Cursor

/-- The start of a text. -/
def start (text : String) : Cursor := ⟨text.toList, 0, 1, 0, true⟩

/-- The character some places on. -/
def peek (c : Cursor) (ahead : Nat) : Char := c.rest.getD ahead ending

/-- The character at the place. -/
def char (c : Cursor) : Char := c.peek 0

/-- Steps that are enough to go through what is left. -/
def steps (c : Cursor) : Nat := c.rest.length + 1

/-- Behind some characters of one line, leaving the line as fresh as it was. -/
def skipBlanks (c : Cursor) (n : Nat) : Cursor :=
  { c with rest := c.rest.drop n, index := c.index + n, column := c.column + n }

/-- Behind some characters of one line that count. -/
def skip (c : Cursor) (n : Nat) : Cursor :=
  { c.skipBlanks n with fresh := false }

/-- On the next line, behind a character that ends one. -/
def skipNewline (c : Cursor) : Cursor :=
  { c with rest := c.rest.drop 1, index := c.index + 1, line := c.line + 1, column := 0,
           fresh := true }

/-- On the next line, if a line ends here. -/
def skipBreak (c : Cursor) : Cursor :=
  if c.char = '\r' ∧ c.peek 1 = '\n' then (c.skipBlanks 1).skipNewline
  else if isBreak c.char then c.skipNewline
  else c

/-- Behind all characters of a class from here on, which end no line. -/
def skipWhile (c : Cursor) (p : Char → Bool) : Cursor :=
  c.skipBlanks (c.rest.takeWhile p).length

/-- At the end of the line. -/
def skipLine (c : Cursor) : Cursor :=
  c.skipWhile fun d => !isBreakOrEnd d

/-- Whether three times a character stand here, and then a gap. -/
def atTriple (c : Cursor) (d : Char) : Bool :=
  c.peek 0 = d && c.peek 1 = d && c.peek 2 = d && isGap (c.peek 3)

/-- Whether a document starts here. -/
def atDocumentStart (c : Cursor) : Bool := c.atTriple '-'

/-- Whether a document ends here. -/
def atDocumentEnd (c : Cursor) : Bool := c.atTriple '.'

/-- Whether a plain scalar can go on with the character here. -/
def plainGoesOn (c : Cursor) (inFlow : Bool) : Bool :=
  if c.char = ':' ∧ (isGap (c.peek 1) ∨ (inFlow ∧ isFlow (c.peek 1))) then false
  else !(inFlow && isFlow c.char)

/-- What was passed over behind a token. -/
structure Passed where
  cursor : Cursor
  tab : Bool
  space : Bool

/-- Passes over blanks, and over a comment if blanks stand before it. -/
def passBlanks (c : Cursor) (tabs : Bool) : Option Passed :=
  let blanks := c.rest.takeWhile fun d => d = ' ' || (tabs && d = '\t')
  let after := c.skipBlanks blanks.length
  if after.char = '#' then
    if blanks.isEmpty then none
    else some ⟨after.skipLine, blanks.contains '\t', blanks.contains ' '⟩
  else some ⟨after, blanks.contains '\t', blanks.contains ' '⟩

end Cursor

end GemCourier.Yaml
