/-
GemCourier/Project/Interval.lean

The time between two scans of a watch, in whole milliseconds.
-/

namespace GemCourier

/-- A time between two scans; there is always some. -/
structure Interval where
  milliseconds : Nat
  positive : 0 < milliseconds := by decide
deriving DecidableEq, Repr

namespace Interval

/-- One second. -/
def second : Interval := ⟨1000, by decide⟩

/-- The interval of some milliseconds, if there are any. -/
def ofMilliseconds? (n : Nat) : Option Interval :=
  if h : 0 < n then some ⟨n, h⟩ else none

/-- The digits behind the point of a number of seconds, without zeros at the end. -/
def fractionDigits (milliseconds : Nat) : String :=
  let digits := (toString (1000 + milliseconds)).toList.drop 1
  String.ofList (digits.reverse.dropWhile (· = '0')).reverse

/-- The interval as the log shows it. -/
def shown (i : Interval) : String :=
  if i.milliseconds < 1000 then s!"{i.milliseconds}ms"
  else if i.milliseconds % 1000 = 0 then s!"{i.milliseconds / 1000}s"
  else s!"{i.milliseconds / 1000}.{fractionDigits (i.milliseconds % 1000)}s"

end Interval

end GemCourier
