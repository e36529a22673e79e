/-
GemCourier/Shell/Script.lean

The text of a shell script, read as a list of commands.

Reading takes two steps.  The first goes through the characters and settles what
quotes, backslashes and comments mean; it leaves pieces of words and marks.  The
second gathers the pieces into words and the words into commands, each with the
line it stands on, the redirections it asks for, and the condition on the
command before it under which it is run.
-/

namespace GemCourier.Shell

/-! ### Pieces -/

/-- What a script can ask the shell for. -/
inductive Parameter where
  /-- One of the words the script was started with; the first is its own name. -/
  | word (index : Nat)
  /-- How many words follow the name. -/
  | count
  /-- All words that follow the name. -/
  | every
  /-- The status of the last command. -/
  | status
  /-- The number of the running script. -/
  | process
deriving DecidableEq, Repr

/-- A piece of a word. -/
inductive Piece where
  | char (c : Char)
  | parameter (p : Parameter) (quoted : Bool)
deriving DecidableEq, Repr

/-- A word as it is written. -/
abbrev Word := List Piece

/-- How a redirection treats its target. -/
inductive Direction where
  /-- The target is emptied and written. -/
  | over
  /-- The target is written behind what it holds. -/
  | behind
  /-- The target is the number of another stream. -/
  | alike
  /-- The target is read. -/
  | input
deriving DecidableEq, Repr

/-- When a command is run, by how the one before it went. -/
inductive Condition where
  | always
  | afterSuccess
  | afterFailure
deriving DecidableEq, Repr

/-- What the first step leaves of the characters. -/
inductive Lexeme where
  | piece (p : Piece)
  /-- A quote, which makes a word even of nothing. -/
  | quote
  | blank
  | line
  /-- The end of a command, and the condition on the next one. -/
  | stop (next : Condition)
  /-- The number of the stream that the redirection behind it is about. -/
  | stream (number : Nat)
  | redirection (direction : Direction)
deriving DecidableEq, Repr

/-! ### Characters to lexemes -/

/-- Where the reading of characters stands. -/
inductive Place where
  /-- Before a word. -/
  | outside
  /-- Inside a word, and inside no quotes. -/
  | bare
  | single
  | double
  | comment
deriving DecidableEq, Repr

/-- The parameter a character names behind a dollar sign. -/
def parameter? (c : Char) : Option Parameter :=
  match c with
  | '#' => some .count
  | '@' => some .every
  | '*' => some .every
  | '?' => some .status
  | '$' => some .process
  | c => if c.isDigit then some (.word (c.toNat - '0'.toNat)) else none

/-- A character that stands for itself. -/
def plain (c : Char) : Lexeme := .piece (.char c)

/-- What a backslash and the character behind it leave inside double quotes. -/
def escapedInQuotes (c : Char) : List Lexeme :=
  if c = '\n' then []
  else if "$\\\"\x60".toList.contains c then [plain c]
  else [plain '\\', plain c]

/-- The place inside a word, for a place before or inside one. -/
def Place.entered : Place → Place
  | outside => bare
  | place => place

/-- The lexemes of a script. -/
def lexemes (place : Place) (text : List Char) : List Lexeme :=
  match place, text with
  | _, [] => []
  | .comment, '\n' :: rest => .line :: lexemes .outside rest
  | .comment, _ :: rest => lexemes .comment rest
  | .single, '\x27' :: rest => lexemes .bare rest
  | .single, c :: rest => plain c :: lexemes .single rest
  | .double, '\x22' :: rest => lexemes .bare rest
  | .double, '\\' :: c :: rest => escapedInQuotes c ++ lexemes .double rest
  | place, '$' :: '\x7b' :: c :: '\x7d' :: rest =>
    match parameter? c with
    | some p => .piece (.parameter p (place = .double)) :: lexemes place.entered rest
    | none => lexemes place.entered rest
  | place, '$' :: c :: rest =>
    match parameter? c with
    | some p => .piece (.parameter p (place = .double)) :: lexemes place.entered rest
    | none => plain '$' :: lexemes place.entered (c :: rest)
  | .double, c :: rest => plain c :: lexemes .double rest
  | .outside, '#' :: rest => lexemes .comment rest
  | .outside, '1' :: '>' :: rest => .stream 1 :: lexemes .bare ('>' :: rest)
  | .outside, '2' :: '>' :: rest => .stream 2 :: lexemes .bare ('>' :: rest)
  | _, '\x27' :: rest => .quote :: lexemes .single rest
  | _, '\x22' :: rest => .quote :: lexemes .double rest
  | place, '\\' :: '\n' :: rest => lexemes place rest
  | _, '\\' :: c :: rest => plain c :: lexemes .bare rest
  | _, '>' :: '>' :: rest => .redirection .behind :: lexemes .outside rest
  | _, '>' :: '&' :: rest => .redirection .alike :: lexemes .outside rest
  | _, '>' :: rest => .redirection .over :: lexemes .outside rest
  | _, '<' :: rest => .redirection .input :: lexemes .outside rest
  | _, '&' :: '&' :: rest => .stop .afterSuccess :: lexemes .outside rest
  | _, '|' :: '|' :: rest => .stop .afterFailure :: lexemes .outside rest
  | _, ';' :: rest => .stop .always :: lexemes .outside rest
  | _, '\n' :: rest => .line :: lexemes .outside rest
  | _, ' ' :: rest => .blank :: lexemes .outside rest
  | _, '\t' :: rest => .blank :: lexemes .outside rest
  | _, c :: rest => plain c :: lexemes .bare rest
termination_by text.length

/-! ### Lexemes to commands -/

/-- A redirection of one stream. -/
structure Redirection where
  stream : Nat
  direction : Direction
  target : Word
deriving DecidableEq, Repr

/-- One command of a script. -/
structure Command where
  line : Nat
  condition : Condition
  words : List Word
  redirections : List Redirection
deriving DecidableEq, Repr

/-- How far the gathering of a command has come. -/
structure Gathering where
  command : Command
  /-- The word that is being gathered. -/
  word : Option Word
  /-- The stream whose redirection comes next. -/
  stream : Option Nat
  /-- The redirection that waits for its target. -/
  waiting : Option (Nat × Direction)
deriving DecidableEq, Repr

namespace Gathering

/-- The start of a command. -/
def start (line : Nat) (condition : Condition) : Gathering :=
  ⟨⟨line, condition, [], []⟩, none, none, none⟩

/-- Adds to the word that is being gathered. -/
def extend (g : Gathering) (pieces : Word) : Gathering :=
  { g with word := some (g.word.getD [] ++ pieces) }

/-- Ends the word that is being gathered. -/
def endWord (g : Gathering) : Gathering :=
  match g.word, g.waiting with
  | none, _ => g
  | some w, none => { g with command.words := g.command.words ++ [w], word := none }
  | some w, some (stream, direction) =>
    { g with command.redirections := g.command.redirections ++ [⟨stream, direction, w⟩],
             word := none, waiting := none }

/-- The stream a direction is about when none is named. -/
def usualStream : Direction → Nat
  | .input => 0
  | _ => 1

/-- Waits for the target of a redirection. -/
def await (g : Gathering) (direction : Direction) : Gathering :=
  let g := g.endWord
  { g with stream := none, waiting := some (g.stream.getD (usualStream direction), direction) }

/-- The command that was gathered, if there is one. -/
def finished (g : Gathering) : List Command :=
  let command := g.endWord.command
  if command.words = [] ∧ command.redirections = [] then [] else [command]

/-- The condition on the next command where a line ends. -/
def conditionBeyondLine (g : Gathering) : Condition :=
  if g.finished = [] then g.command.condition else .always

end Gathering

/-- The commands that lexemes spell behind what has been gathered. -/
def commandsFrom (g : Gathering) : List Lexeme → List Command
  | [] => g.finished
  | .piece p :: rest => commandsFrom (g.extend [p]) rest
  | .quote :: rest => commandsFrom (g.extend []) rest
  | .blank :: rest => commandsFrom g.endWord rest
  | .stream n :: rest => commandsFrom { g with stream := some n } rest
  | .redirection d :: rest => commandsFrom (g.await d) rest
  | .stop next :: rest =>
    g.finished ++ commandsFrom (.start g.command.line next) rest
  | .line :: rest =>
    g.finished ++ commandsFrom (.start (g.command.line + 1) g.conditionBeyondLine) rest

/-- The commands of a script. -/
def commands (text : String) : List Command :=
  commandsFrom (.start 1 .always) (lexemes .outside text.toList)

end GemCourier.Shell
