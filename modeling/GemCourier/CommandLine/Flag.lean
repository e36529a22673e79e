/-
GemCourier/CommandLine/Flag.lean

The flags and arguments of the command line, and what their values mean.

A value is checked by its kind: a path must not be empty, a level must be one of
the known names, an interval a positive number below 2^64, and a repository a
pair of owner and name.
-/
import GemCourier.Host.Basic
import GemCourier.Project.Interval
import GemCourier.Release.Version
import GemCourier.Remote.Repository

namespace GemCourier.CommandLine

/-- Why a command line is refused, or what is shown in its place. -/
inductive UsageError where
  /-- A flag or an argument is not known. -/
  | unknownArgument
  /-- A command is not known. -/
  | invalidSubcommand
  /-- There is no command. -/
  | missingSubcommand
  /-- There is nothing at all, and help is shown. -/
  | helpOnMissing
  /-- Help was asked for. -/
  | displayHelp
  /-- The version was asked for. -/
  | displayVersion
  /-- A flag is given twice. -/
  | argumentConflict
  /-- A flag that takes no value is given one. -/
  | tooManyValues
  /-- A value is missing, or is none of those that are possible. -/
  | invalidValue
  /-- A value is no positive number. -/
  | invalidNumber
  /-- A value names no repository. -/
  | invalidRepository (cause : RepositoryError)
  /-- An argument that has to be given is missing. -/
  | missingRequiredArgument
deriving DecidableEq, Repr

namespace UsageError

/-- The code the program ends with: what was asked for is no failure. -/
def exitCode : UsageError → Nat
  | displayHelp => 0
  | displayVersion => 0
  | _ => 2

/-- The version as it is shown. -/
def versionText : String := s!"picogem {Version.current}\n"

end UsageError

/-- What a flag or an argument stands for. -/
inductive Kind where
  | switch
  | help
  | version
  | text
  | path
  | repository
  | level
  | interval
deriving DecidableEq, Repr

namespace Kind

/-- Whether a value belongs to it. -/
def takesValue : Kind → Bool
  | switch => false
  | help => false
  | version => false
  | _ => true

end Kind

/-- A flag, known by its long name and perhaps a letter, or an argument without a flag. -/
structure Flag where
  name : String
  letter : Option Char
  kind : Kind
deriving DecidableEq, Repr

/-- The value given for a flag or an argument. -/
inductive Value where
  | on
  | text (value : String)
  | path (value : Path)
  | repository (value : Repository)
  /-- A level of the log; there is none if the log is silent. -/
  | level (value : Option Level)
  | interval (value : Interval)
deriving DecidableEq, Repr

/-- The level of the log that a name stands for; a silent log has none. -/
def level? : String → Option (Option Level)
  | "debug" => some (some .debug)
  | "info" => some (some .info)
  | "warn" => some (some .warn)
  | "error" => some (some .error)
  | "silent" => some none
  | _ => none

/-- The number that decimal digits spell, with a plus in front or without; there has to be a
digit, and the number has to have a place in 64 bits. -/
def number? (text : String) : Option Nat :=
  let digits := match text.toList with
    | '+' :: ds => ds
    | ds => ds
  if digits.isEmpty ∨ !digits.all Char.isDigit then none
  else
    let n := digits.foldl (fun n c => 10 * n + (c.toNat - '0'.toNat)) 0
    if n < Version.numberLimit then some n else none

/-- The value a text has for a kind. -/
def Kind.read (kind : Kind) (raw : String) : Except UsageError Value :=
  match kind with
  | .switch => .ok .on
  | .help => .error .displayHelp
  | .version => .error .displayVersion
  | .text => .ok (.text raw)
  | .path => if raw = "" then .error .invalidValue else .ok (.path ⟨raw⟩)
  | .repository => match Repository.parse raw with
    | .ok r => .ok (.repository r)
    | .error e => .error (.invalidRepository e)
  | .level => match level? raw with
    | some l => .ok (.level l)
    | none => .error .invalidValue
  | .interval => match (number? raw).bind Interval.ofMilliseconds? with
    | some i => .ok (.interval i)
    | none => .error .invalidNumber

/-- The values given on one level of the command line, by name. -/
abbrev Values := List (String × Value)

namespace Values

/-- Whether a switch is on. -/
def isOn (vs : Values) (name : String) : Bool :=
  (vs.lookup name).isSome

/-- The text given under a name. -/
def text? (vs : Values) (name : String) : Option String :=
  match vs.lookup name with
  | some (.text s) => some s
  | _ => none

/-- The path given under a name. -/
def path? (vs : Values) (name : String) : Option Path :=
  match vs.lookup name with
  | some (.path p) => some p
  | _ => none

/-- The repository given under a name. -/
def repository? (vs : Values) (name : String) : Option Repository :=
  match vs.lookup name with
  | some (.repository r) => some r
  | _ => none

/-- The level given under a name. -/
def level? (vs : Values) (name : String) : Option (Option Level) :=
  match vs.lookup name with
  | some (.level l) => some l
  | _ => none

/-- The interval given under a name. -/
def interval? (vs : Values) (name : String) : Option Interval :=
  match vs.lookup name with
  | some (.interval i) => some i
  | _ => none

end Values

end GemCourier.CommandLine
