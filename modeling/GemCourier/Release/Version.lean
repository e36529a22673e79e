/-
GemCourier/Release/Version.lean

Dotted version numbers and which of two is newer.

A version reads as the numbers at the front of its pieces, with blanks around
the whole text left out.  A piece without digits reads as zero, and so does one
whose number has no place in 64 bits.  Two versions are compared number by
number, the shorter one going on with zeros.
-/
import GemCourier.Text.Blank

namespace GemCourier.Version

/-- The version of this program. -/
def current : String := "0.5.0"

/-- Numbers from here on have no place in 64 bits. -/
def numberLimit : Nat := 0x1_0000_0000_0000_0000

/-- The value of a decimal digit. -/
def digitValue (c : Char) : Nat := c.toNat - '0'.toNat

/-- The number that decimal digits spell. -/
def decimal (digits : List Char) : Nat :=
  digits.foldl (fun n c => 10 * n + digitValue c) 0

/-- The number at the front of a piece. -/
def leadingNumber (piece : List Char) : Nat :=
  let n := decimal (piece.takeWhile Char.isDigit)
  if n < numberLimit then n else 0

/-- The numbers a version reads as. -/
def numbers (version : String) : List Nat :=
  (Text.pieces '.' (Text.stripped version).toList).map leadingNumber

/-- Lists of numbers by their first difference, the shorter one going on with zeros. -/
def compareNumbers : List Nat → List Nat → Ordering
  | [], [] => .eq
  | x :: xs, [] => (compare x 0).then (compareNumbers xs [])
  | [], y :: ys => (compare 0 y).then (compareNumbers [] ys)
  | x :: xs, y :: ys => (compare x y).then (compareNumbers xs ys)

/-- How one version stands to another. -/
def order (a b : String) : Ordering :=
  compareNumbers (numbers a) (numbers b)

/-- Whether a version is strictly newer than another. -/
def isNewer (latest current : String) : Bool :=
  order latest current == .gt

end GemCourier.Version
