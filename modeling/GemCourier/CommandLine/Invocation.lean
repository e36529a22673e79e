/-
GemCourier/CommandLine/Invocation.lean

The commands of the program, and the command line that asks for one of them.

The flags for the root, the level of the log and the update check can stand
before the command and behind it; what stands behind it counts.
-/
import GemCourier.CommandLine.Reading

namespace GemCourier.CommandLine

/-- Where gems are looked up, as far as flags say so. -/
structure RemoteFlags where
  repo : Option Repository
  branch : Option String
  dir : Option String
deriving DecidableEq, Repr

/-- A command with its flags and arguments. -/
inductive Command where
  /-- Downloads a gem. -/
  | add (package : String) (remote : RemoteFlags) (output : Option Path) (compile : Bool)
  /-- Lists the gems there are. -/
  | list (remote : RemoteFlags)
  /-- Copies sources to a storage. -/
  | sync (storage : Option Path) (watch : Bool) (interval : Option Interval)
  /-- Replaces the program by its latest release. -/
  | update (check : Bool)
deriving DecidableEq, Repr

namespace Command

/-- The name of a command. -/
def name : Command → String
  | add .. => "add"
  | list .. => "list"
  | sync .. => "sync"
  | update .. => "update"

/-- Whether the command is the update itself. -/
def isUpdate : Command → Bool
  | update _ => true
  | _ => false

end Command

/-- What a command line asks for. -/
structure Invocation where
  command : Command
  /-- The least level that is logged; a silent log has none. -/
  logLevel : Option Level
  root : Path
  noUpdateCheck : Bool
deriving DecidableEq, Repr

/-! ### The grammar -/

/-- The flags that every level has. -/
def sharedFlags : List Flag :=
  [⟨"log-level", some 'l', .level⟩, ⟨"root", none, .path⟩, ⟨"no-update-check", none, .switch⟩,
   ⟨"help", some 'h', .help⟩]

/-- The flags that say where gems are looked up. -/
def remoteFlags : List Flag :=
  [⟨"repo", some 'r', .repository⟩, ⟨"branch", some 'b', .text⟩, ⟨"dir", some 'd', .text⟩]

/-- The names of the commands, with the one that shows help. -/
def commandNames : List String := ["add", "list", "sync", "update", "help"]

/-- The level before the command. -/
def outerGrammar : Grammar :=
  ⟨⟨"version", some 'V', .version⟩ :: sharedFlags, [], commandNames⟩

/-- The level behind a command. -/
def innerGrammar : String → Grammar
  | "add" =>
    ⟨remoteFlags ++ [⟨"output", some 'o', .path⟩, ⟨"compile", none, .switch⟩] ++ sharedFlags,
      [⟨"package", none, .text⟩], []⟩
  | "list" => ⟨remoteFlags ++ sharedFlags, [], []⟩
  | "sync" =>
    ⟨[⟨"watch", some 'w', .switch⟩, ⟨"interval-ms", none, .interval⟩] ++ sharedFlags,
      [⟨"storage", none, .path⟩], []⟩
  | _ => ⟨[⟨"check", none, .switch⟩] ++ sharedFlags, [], []⟩

/-- What a request for help comes to: each further word has to name a command, `help` itself
can be named twice, and the other commands have none of their own. -/
def helpFor : List String → UsageError
  | [] => .displayHelp
  | ["help", word] => if commandNames.contains word then .displayHelp else .invalidSubcommand
  | [word] => if commandNames.contains word then .displayHelp else .invalidSubcommand
  | _ => .invalidSubcommand

/-! ### Putting together -/

/-- Where gems are looked up, by the values given. -/
def RemoteFlags.ofValues (vs : Values) : RemoteFlags :=
  ⟨vs.repository? "repo", vs.text? "branch", vs.text? "dir"⟩

/-- The command of a name by the values given. -/
def Command.ofValues (name : String) (vs : Values) : Except UsageError Command :=
  match name with
  | "add" => match vs.text? "package" with
    | some package =>
      .ok (.add package (.ofValues vs) (vs.path? "output") (vs.isOn "compile"))
    | none => .error .missingRequiredArgument
  | "list" => .ok (.list (.ofValues vs))
  | "sync" => .ok (.sync (vs.path? "storage") (vs.isOn "watch") (vs.interval? "interval-ms"))
  | _ => .ok (.update (vs.isOn "check"))

/-- The invocation of a command by the values given behind it and before it. -/
def Invocation.ofValues (command : Command) (inner outer : Values) : Invocation :=
  { command := command
    logLevel := ((inner.level? "log-level").or (outer.level? "log-level")).getD (some .warn)
    root := ((inner.path? "root").or (outer.path? "root")).getD ⟨"."⟩
    noUpdateCheck := inner.isOn "no-update-check" || outer.isOn "no-update-check" }

/-- Reads what stands behind a command. -/
def readInner (name : String) (words : List String) : Except UsageError (Command × Values) := do
  let (p, _) ← (innerGrammar name).read .start words
  let p ← p.settle
  let command ← Command.ofValues name p.values
  return (command, p.values)

/-- What the words of a command line ask for, the name of the program left out. -/
def Invocation.ofWords (words : List String) : Except UsageError Invocation := do
  let (p, command?) ← outerGrammar.read .start words
  match command? with
  | none =>
    let p ← p.settle
    if p.values.isEmpty then .error .helpOnMissing else .error .missingSubcommand
  | some ("help", rest) => .error (helpFor rest)
  | some (name, rest) =>
    let (command, inner) ← readInner name rest
    let p ← p.settle
    return .ofValues command inner p.values

/-- What a command line asks for, the name of the program in front. -/
def Invocation.parse (argv : List String) : Except UsageError Invocation :=
  Invocation.ofWords (argv.drop 1)

end GemCourier.CommandLine
