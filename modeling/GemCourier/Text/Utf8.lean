/-
GemCourier/Text/Utf8.lean

Reading bytes as text when they may not be text.

Bytes are read one after the other, with at most one character begun.  A byte
that cannot go on with the character that was begun, or that cannot begin one,
does not spoil what follows: what was begun reads as one replacement character,
and the byte is taken as a new beginning.
-/

namespace GemCourier.Text

/-- The character that stands for bytes that are no text. -/
def replacement : Char := '\ufffd'

/-- A character that was begun: its value so far, how many bytes are missing, and the bounds
of the next one. -/
structure Begun where
  value : Nat
  missing : Nat
  low : Nat
  high : Nat
deriving DecidableEq, Repr

/-- The character that a first byte begins, if it begins one of several bytes. -/
def begun? (b : Nat) : Option Begun :=
  if 0xc2 ≤ b ∧ b ≤ 0xdf then some ⟨b - 0xc0, 1, 0x80, 0xbf⟩
  else if b = 0xe0 then some ⟨0, 2, 0xa0, 0xbf⟩
  else if b = 0xed then some ⟨0xd, 2, 0x80, 0x9f⟩
  else if 0xe1 ≤ b ∧ b ≤ 0xef then some ⟨b - 0xe0, 2, 0x80, 0xbf⟩
  else if b = 0xf0 then some ⟨0, 3, 0x90, 0xbf⟩
  else if 0xf1 ≤ b ∧ b ≤ 0xf3 then some ⟨b - 0xf0, 3, 0x80, 0xbf⟩
  else if b = 0xf4 then some ⟨4, 3, 0x80, 0x8f⟩
  else none

/-- What a byte at the start of a character gives, and what it begins. -/
def readFirst (b : Nat) : List Char × Option Begun :=
  if b < 0x80 then ([Char.ofNat b], none)
  else match begun? b with
    | some c => ([], some c)
    | none => ([replacement], none)

/-- What a byte gives behind what was begun, and what is begun then. -/
def readByte (begun : Option Begun) (b : Nat) : List Char × Option Begun :=
  match begun with
  | none => readFirst b
  | some c =>
    if c.low ≤ b ∧ b ≤ c.high then
      let value := c.value * 64 + (b - 0x80)
      if c.missing = 1 then ([Char.ofNat value], none)
      else ([], some ⟨value, c.missing - 1, 0x80, 0xbf⟩)
    else (replacement :: (readFirst b).1, (readFirst b).2)

/-- The characters of bytes behind what was begun. -/
def readBytes (begun : Option Begun) : List UInt8 → List Char
  | [] => if begun.isSome then [replacement] else []
  | b :: rest => (readByte begun b.toNat).1 ++ readBytes (readByte begun b.toNat).2 rest

/-- Bytes as text, with replacement characters for what is no text. -/
def ofBytes (bytes : ByteArray) : String :=
  String.ofList (readBytes none bytes.toList)

end GemCourier.Text
