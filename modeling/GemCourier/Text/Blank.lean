/-
GemCourier/Text/Blank.lean

Blank characters: the code points with the property White_Space, ASCII or not.
Version numbers and a compiler's diagnostics are trimmed by this class.
-/
import GemCourier.Text.Pieces

namespace GemCourier.Text

/-- The runs of code points with the property White_Space. -/
def blankRuns : List (Nat × Nat) :=
  [(0x09, 0x0D), (0x20, 0x20), (0x85, 0x85), (0xA0, 0xA0), (0x1680, 0x1680),
   (0x2000, 0x200A), (0x2028, 0x2029), (0x202F, 0x202F), (0x205F, 0x205F), (0x3000, 0x3000)]

/-- Whether a character counts as blank. -/
def isBlank (c : Char) : Bool :=
  blankRuns.any fun run => run.1 ≤ c.toNat && c.toNat ≤ run.2

/-- A text without blanks at either end. -/
def stripped (text : String) : String :=
  trim isBlank text

end GemCourier.Text
