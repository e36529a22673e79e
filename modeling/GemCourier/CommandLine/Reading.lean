/-
GemCourier/CommandLine/Reading.lean

Reading one level of the command line: its flags, its arguments, and the name of
a command that ends it.

A flag takes its value from behind an equals sign or from the next word.  A
value taken from the next word is checked only when something else turns up, so
an unknown flag behind it is the error that shows.  Behind `--` every word is an
argument.
-/
import GemCourier.CommandLine.Flag

namespace GemCourier.CommandLine

/-- One level of the command line. -/
structure Grammar where
  flags : List Flag
  arguments : List Flag
  commands : List String

/-- How far the reading of a level has come. -/
structure Progress where
  values : Values
  /-- The flag or argument whose words are not checked yet. -/
  pending : Option (Flag × List String)
  /-- Whether the pending flag still waits for its word. -/
  awaiting : Bool
  /-- How many arguments have been taken. -/
  taken : Nat
  /-- Whether only arguments can follow. -/
  argumentsOnly : Bool

namespace Progress

/-- The start of a level. -/
def start : Progress := ⟨[], none, false, 0, false⟩

/-- Takes in a flag or an argument with its words. -/
def take (p : Progress) (flag : Flag) (words : List String) : Except UsageError Progress :=
  if flag.kind.takesValue ∧ words = [] then .error .invalidValue
  else if (p.values.lookup flag.name).isSome then .error .argumentConflict
  else (flag.kind.read (words.headD "")).map fun v =>
    { p with values := p.values ++ [(flag.name, v)], awaiting := false }

/-- Takes in what is pending. -/
def settle (p : Progress) : Except UsageError Progress :=
  match p.pending with
  | none => .ok p
  | some (flag, words) => { p with pending := none }.take flag words

/-- Takes in what is pending, and then a flag with its words. -/
def settleAndTake (p : Progress) (flag : Flag) (words : List String) :
    Except UsageError Progress :=
  p.settle.bind fun p => p.take flag words

/-- Takes in what is pending, and waits for the word of a flag. -/
def await (p : Progress) (flag : Flag) : Except UsageError Progress :=
  p.settle.map fun p => { p with pending := some (flag, []), awaiting := true }

/-- Gives the pending flag its word. -/
def supply (p : Progress) (word : String) : Progress :=
  { p with pending := p.pending.map fun (flag, words) => (flag, words ++ [word]),
           awaiting := false }

/-- Takes a word as the next argument. -/
def argument (p : Progress) (flag : Flag) (word : String) : Except UsageError Progress :=
  p.settle.map fun p =>
    { p with pending := some (flag, [word]), awaiting := false, taken := p.taken + 1 }

end Progress

namespace Grammar

/-- A text cut at the first equals sign. -/
def cutAtEquals (text : List Char) : String × Option String :=
  match text.dropWhile (· ≠ '=') with
  | [] => (String.ofList text, none)
  | _ :: value => (String.ofList (text.takeWhile (· ≠ '=')), some (String.ofList value))

/-- A flag given by its long name. -/
def readLong (g : Grammar) (p : Progress) (text : List Char) : Except UsageError Progress :=
  let (name, value) := cutAtEquals text
  match g.flags.find? (·.name = name) with
  | none => .error .unknownArgument
  | some flag =>
    match value with
    | some value =>
      if flag.kind.takesValue then p.settleAndTake flag [value] else .error .tooManyValues
    | none => if flag.kind.takesValue then p.await flag else p.settleAndTake flag []

/-- Flags given by their letters; what stands behind the letter of a flag that takes a value
is its value. -/
def readLetters (g : Grammar) (p : Progress) : List Char → Except UsageError Progress
  | [] => .ok p
  | letter :: rest =>
    match g.flags.find? (·.letter = some letter) with
    | none => .error .unknownArgument
    | some flag =>
      if flag.kind.takesValue then
        match rest with
        | [] => p.await flag
        | '=' :: value => p.settleAndTake flag [String.ofList value]
        | value => p.settleAndTake flag [String.ofList value]
      else (p.settleAndTake flag []).bind fun p => g.readLetters p rest

/-- A word that is no flag. -/
def readArgument (g : Grammar) (p : Progress) (word : String) : Except UsageError Progress :=
  match g.arguments[p.taken]? with
  | some flag => p.argument flag word
  | none =>
    if g.commands.isEmpty ∨ (p.argumentsOnly ∧ g.commands.contains word) then
      .error .unknownArgument
    else .error .invalidSubcommand

/-- A word that is no command. -/
def readWord (g : Grammar) (p : Progress) (word : String) : Except UsageError Progress :=
  if p.argumentsOnly then g.readArgument p word
  else match word.toList with
    | ['-', '-'] => .ok { p with argumentsOnly := true }
    | '-' :: '-' :: text => g.readLong p text
    | '-' :: letter :: letters => g.readLetters p (letter :: letters)
    | _ => if p.awaiting then .ok (p.supply word) else g.readArgument p word

/-- Reads a level up to its end or to the name of a command, and answers what has been read,
the command, and the words behind it. -/
def read (g : Grammar) (p : Progress) :
    List String → Except UsageError (Progress × Option (String × List String))
  | [] => .ok (p, none)
  | word :: rest =>
    if !p.argumentsOnly ∧ !p.awaiting ∧ g.commands.contains word then
      .ok (p, some (word, rest))
    else (g.readWord p word).bind fun p => g.read p rest

end Grammar

end GemCourier.CommandLine
