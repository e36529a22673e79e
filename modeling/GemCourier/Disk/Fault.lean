/-
GemCourier/Disk/Fault.lean

Why an operation on the disk fails.

Every fault but one has a number, which is what a caller reports to a program;
the text is what a person reads.  A path holding a NUL character never reaches
the disk, so that fault has no number.
-/

namespace GemCourier

/-- The reasons for which the disk refuses an operation. -/
inductive Fault where
  /-- Something on the way, or at its end, does not exist. -/
  | notFound
  /-- A program file names no interpreter. -/
  | execFormat
  /-- The file may not be run. -/
  | accessDenied
  /-- The place cannot be replaced or removed. -/
  | busy
  /-- There is something at a place that had to be free. -/
  | alreadyExists
  /-- Something other than a directory stands where one is needed. -/
  | notDirectory
  /-- A directory stands where a file is needed. -/
  | isDirectory
  /-- The operation makes no sense for this place. -/
  | invalid
  /-- A name, or the whole path, is longer than the disk takes. -/
  | nameTooLong
  /-- A directory that had to be empty holds something. -/
  | notEmpty
  /-- The way leads through more symbolic links than are followed. -/
  | tooManyLinks
  /-- The path holds a NUL character. -/
  | holdsNul
deriving DecidableEq, Repr

namespace Fault

/-- The number the system gives the fault. -/
def number? : Fault → Option Nat
  | notFound => some 2
  | execFormat => some 8
  | accessDenied => some 13
  | busy => some 16
  | alreadyExists => some 17
  | notDirectory => some 20
  | isDirectory => some 21
  | invalid => some 22
  | nameTooLong => some 36
  | notEmpty => some 39
  | tooManyLinks => some 40
  | holdsNul => none

/-- The fault in words. -/
def words : Fault → String
  | notFound => "No such file or directory"
  | execFormat => "Exec format error"
  | accessDenied => "Permission denied"
  | busy => "Device or resource busy"
  | alreadyExists => "File exists"
  | notDirectory => "Not a directory"
  | isDirectory => "Is a directory"
  | invalid => "Invalid argument"
  | nameTooLong => "File name too long"
  | notEmpty => "Directory not empty"
  | tooManyLinks => "Too many levels of symbolic links"
  | holdsNul => "file name contained an unexpected NUL byte"

/-- The fault as a person reads it: the words, and the number if there is one. -/
def message (f : Fault) : String :=
  match f.number? with
  | some n => s!"{f.words} (os error {n})"
  | none => f.words

end Fault

end GemCourier
