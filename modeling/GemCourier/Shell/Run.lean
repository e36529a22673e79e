/-
GemCourier/Shell/Run.lean

Running a shell script on the host.

The commands of a script are run one after the other.  Each has its words
expanded, its redirections opened in order, and is then one of the few commands
the shell knows: it prints, copies files out, ends the script or kills it.  What
is printed goes where the redirections say; of the rest only the stream for
complaints is kept.

A redirection that cannot be opened is complained about, and its command is not
run; the script goes on.
-/
import GemCourier.Host.Basic
import GemCourier.Shell.Script
import GemCourier.Shell.Printing

namespace GemCourier.Shell

/-- How a program ended: its exit code, unless it was killed, and its complaints. -/
structure Ending where
  code : Option Nat
  complaints : ByteArray

/-- A script that is running. -/
structure Session where
  name : String
  arguments : List String
  status : Nat
  complaints : List UInt8

/-- Where a stream leads. -/
inductive Sink where
  | nowhere
  | complaints
  | file (path : Path)

/-- What a command comes to. -/
inductive Result where
  /-- It printed something, complained of something, and has a status. -/
  | done (printed : List UInt8) (complaints : List UInt8) (status : Nat)
  /-- It ends the script with a code. -/
  | exits (code : Nat)
  /-- It kills the script. -/
  | kills

namespace Session

/-! ### Words -/

/-- The number of the running script. -/
def processNumber : String := "1"

/-- The texts a parameter stands for. -/
def values (s : Session) : Parameter → List String
  | .word 0 => [s.name]
  | .word (n + 1) => [s.arguments.getD n ""]
  | .count => [toString s.arguments.length]
  | .every => s.arguments
  | .status => [toString s.status]
  | .process => [processNumber]

/-- The fields that are finished, and the one that is being put together. -/
abbrev Fields := List String × Option String

/-- Puts several texts at the end of the fields, the first one into the last field. -/
def appendTexts (fields : Fields) : List String → Fields
  | [] => fields
  | [text] => (fields.1, some (fields.2.getD "" ++ text))
  | text :: rest => appendTexts (fields.1 ++ [fields.2.getD "" ++ text], none) rest

/-- The parts of a text between blanks. -/
def splitAtBlanks (text : String) : List String :=
  ((text.toList.splitBy fun a b => a.isWhitespace == b.isWhitespace).filter
    fun run => !run.any Char.isWhitespace).map String.ofList

/-- Puts a piece of a word at the end of the fields. -/
def appendPiece (s : Session) (fields : Fields) : Piece → Fields
  | .char c => appendTexts fields [c.toString]
  | .parameter p true => appendTexts fields (s.values p)
  | .parameter p false => appendTexts fields ((s.values p).flatMap splitAtBlanks)

/-- The field a word begins with, if it has to give one. -/
def firstField (w : Word) : Option String :=
  if w.any (fun
      | .parameter .every true => true
      | .parameter _ quoted => !quoted
      | .char _ => false) then none
  else some ""

/-- The texts a word stands for. -/
def expand (s : Session) (w : Word) : List String :=
  let (finished, last) := w.foldl s.appendPiece ([], firstField w)
  finished ++ last.toList

/-! ### Redirections -/

/-- Adds to the complaints. -/
def complain (s : Session) (bytes : List UInt8) : Session :=
  { s with complaints := s.complaints ++ bytes }

/-- The reason given for a file that could not be opened. -/
def openingFault (direction : Direction) (fault : Fault) : String :=
  match direction, fault with
  | .input, .notFound => "No such file"
  | .input, .notDirectory => "No such file"
  | _, .notFound => "Directory nonexistent"
  | _, .notDirectory => "Directory nonexistent"
  | _, fault => fault.words

/-- The complaint about a redirection that could not be opened. -/
def openingComplaint (s : Session) (line : Nat) (direction : Direction) (target : String)
    (fault : Fault) : List UInt8 :=
  let verb := if direction = .input then "open" else "create"
  textBytes s!"{s.name}: {line}: cannot {verb} {target}: {openingFault direction fault}\n"

/-- Opens a file for a direction. -/
def openFile (direction : Direction) (path : Path) : Act (Except Fault Unit) := do
  match direction with
  | .over => Act.change (·.writeFile path ByteArray.empty)
  | .behind =>
    let d ← Act.disk
    if d.isFile path then return .ok () else Act.change (·.writeFile path ByteArray.empty)
  | _ => return ((← Act.disk).readFile path).map fun _ => ()

/-- Where the output and the complaints of a command go. -/
structure Sinks where
  output : Sink
  complaints : Sink

/-- The sinks with a stream led elsewhere. -/
def Sinks.redirect (sinks : Sinks) (stream : Nat) (sink : Sink) : Sinks :=
  if stream = 1 then { sinks with output := sink }
  else if stream = 2 then { sinks with complaints := sink }
  else sinks

/-- Where a stream goes that goes where another one does. -/
def Sinks.alike (sinks : Sinks) (target : String) : Sink :=
  if target = "2" then sinks.complaints else if target = "1" then sinks.output else .nowhere

/-- Opens redirections one after the other, up to the first that cannot be opened. -/
def openAll (s : Session) (line : Nat) (sinks : Sinks) :
    List Redirection → Act (Except (List UInt8) Sinks)
  | [] => return .ok sinks
  | r :: rest => do
    let target := (s.expand r.target).headD ""
    if r.direction = .alike then
      s.openAll line (sinks.redirect r.stream (sinks.alike target)) rest
    else match ← openFile r.direction ⟨target⟩ with
      | .error fault => return .error (s.openingComplaint line r.direction target fault)
      | .ok () => s.openAll line (sinks.redirect r.stream (.file ⟨target⟩)) rest

/-- Sends bytes to a sink. -/
def send (s : Session) (sink : Sink) (bytes : List UInt8) : Act Session := do
  match sink with
  | .nowhere => return s
  | .complaints => return s.complain bytes
  | .file path =>
    match (← Act.disk).readFile path with
    | .error _ => return s
    | .ok before =>
      let _ ← Act.change (·.writeFile path (before ++ ⟨bytes.toArray⟩))
      return s

/-! ### Commands -/

/-- The bytes of some files, one after the other, and complaints about those that cannot be
read. -/
def concatenated (d : Disk) (paths : List String) : List UInt8 × List UInt8 :=
  let parts := paths.map fun p => match d.readFile ⟨p⟩ with
    | .ok bytes => (bytes.toList, [])
    | .error fault => ([], textBytes s!"cat: {p}: {fault.words}\n")
  (parts.flatMap (·.1), parts.flatMap (·.2))

/-- The code a script ends with when it asks for one. -/
def exitCode (s : Session) : List String → Nat
  | [] => s.status
  | code :: _ => (code.toNat?.getD 2) % 256

/-- What a command comes to by its name and the words behind it. -/
def perform (s : Session) (d : Disk) (line : Nat) : List String → Result
  | [] => .done [] [] 0
  | "echo" :: words => .done (echoed words) [] 0
  | "printf" :: format :: words => .done (formatted format.toList words) [] 0
  | "cat" :: paths =>
    let (printed, complaints) := concatenated d paths
    .done printed complaints (if complaints = [] then 0 else 1)
  | "exit" :: words => .exits (s.exitCode words)
  | "kill" :: words => if words.contains processNumber then .kills else .done [] [] 1
  | "true" :: _ => .done [] [] 0
  | ":" :: _ => .done [] [] 0
  | "false" :: _ => .done [] [] 1
  | name :: _ => .done [] (textBytes s!"{s.name}: {line}: {name}: not found\n") 127

/-- Whether a command is run after one of a status. -/
def isDue (status : Nat) : Condition → Bool
  | .always => true
  | .afterSuccess => status == 0
  | .afterFailure => status != 0

/-- The ending of the script with a code. -/
def ending (s : Session) (code : Option Nat) : Ending :=
  ⟨code, ⟨s.complaints.toArray⟩⟩

/-- Runs one command, which may end the script. -/
def runOne (s : Session) (c : Command) : Act (Except Ending Session) := do
  match ← s.openAll c.line ⟨.nowhere, .complaints⟩ c.redirections with
  | .error complaint => return .ok { s.complain complaint with status := 2 }
  | .ok sinks =>
    match s.perform (← Act.disk) c.line (c.words.flatMap s.expand) with
    | .exits code => return .error (s.ending (some code))
    | .kills => return .error (s.ending none)
    | .done printed complaints status =>
      let s ← s.send sinks.output printed
      let s ← s.send sinks.complaints complaints
      return .ok { s with status := status }

/-- Runs commands one after the other, up to the end of the script. -/
def runAll (s : Session) : List Command → Act Ending
  | [] => return s.ending (some s.status)
  | c :: rest => do
    if isDue s.status c.condition then
      match ← s.runOne c with
      | .error ending => return ending
      | .ok s => s.runAll rest
    else s.runAll rest

end Session

/-- Runs a script under a name with arguments. -/
def run (script : String) (name : String) (arguments : List String) : Act Ending :=
  Session.runAll ⟨name, arguments, 0, []⟩ (commands script)

end GemCourier.Shell
