/-
GemCourier/Main.lean

The program: runs on the files of the machine.

The trees a run works with are read into a disk, the run is carried out on that
disk, and what it changed is written back.  Symbolic links are read as what they
lead to.  There is no connection to a network here, so a command that needs one
says that it has none.
-/
import GemCourier.Commands.Causes

namespace GemCourier.Machine

/-! ### What a run works with -/

/-- The location a path names, taken from the start of a disk. -/
def locationOf (d : Disk) (p : Path) : Location :=
  (Path.foldComponents (d.fromRoot p)).filterMap fun
    | .name n => some n
    | _ => none

/-- The locations above a location, from the outside in. -/
def above (loc : Location) : List Location :=
  (List.range loc.length).map loc.take

/-- The trees a command works with besides the root of its project. -/
def treesOf (p : Project) (executable : Path) : CommandLine.Command → List Path
  | .add _ _ output _ => [p.outputDir output]
  | .list _ => []
  | .sync storage _ _ => (p.storage? storage).toList
  | .update _ => [executable, Release.stagingPath executable]

/-- What differs on a later disk: its new and changed nodes, and the locations that are gone
from it. -/
def differences (before after : Disk) : List (Location × Node) × List Location :=
  (after.nodes.filter fun e => before.node? e.1 ≠ some e.2,
   (before.nodes.map (·.1)).filter fun loc => (after.node? loc).isNone)

/-! ### Reading and writing -/

/-- The text of the path of a location. -/
def textOf (loc : Location) : String :=
  (Disk.pathOf loc).text

/-- The mode a file is taken to have: a program may be run. -/
def modeOf (bytes : ByteArray) : Nat :=
  if (Program.interpreter? (Text.ofBytes bytes)).isSome then Disk.runnableMode
  else Disk.newFileMode

/-- The disk with the tree at a location read in, as far as it can be read. -/
partial def readTree (d : Disk) (loc : Location) : IO Disk := do
  let place := (← IO.currentDir) / textOf loc
  try
    let facts ← place.metadata
    match facts.type with
    | .dir =>
      let entries ← place.readDir
      entries.foldlM (fun d entry => readTree d (loc ++ [entry.fileName]))
        (if loc = [] then d else d.put loc .folder)
    | .file =>
      let bytes ← IO.FS.readBinFile place
      let modified := facts.modified.sec * 1000000000 + facts.modified.nsec.toNat
      return d.put loc (.file bytes modified (modeOf bytes))
    | _ => return d
  catch _ => return d

/-- The disk with the directories above a location. -/
def readAbove (d : Disk) (loc : Location) : IO Disk := do
  let here ← IO.currentDir
  (above loc).foldlM (fun d outer => do
    if outer ≠ [] && (d.node? outer).isNone && (← (here / textOf outer).isDir) then
      return d.put outer .folder
    else return d) d

/-- The disk with the trees at some paths and the directories above them. -/
def readTrees (d : Disk) (paths : List Path) : IO Disk :=
  paths.foldlM (fun d p => do readTree (← readAbove d (locationOf d p)) (locationOf d p)) d

/-- The disk on which nothing has been read, starting at the current directory. -/
def emptyDisk : IO Disk := do
  let here : Path := ⟨(← IO.currentDir).toString⟩
  let d : Disk := ⟨[], [], 0⟩
  let d := { d with start := locationOf d here }
  let d ← readAbove d d.start
  return if d.start = [] then d else d.put d.start .folder

/-- The rights of a mode. -/
def rightsOf (mode : Nat) : IO.FileRight :=
  ⟨⟨true, true, Program.isRunnable mode⟩, ⟨true, false, Program.isRunnable mode⟩,
   ⟨true, false, Program.isRunnable mode⟩⟩

/-- Writes one node. -/
def writeNode (loc : Location) : Node → IO Unit
  | .folder => IO.FS.createDirAll (textOf loc)
  | .file bytes _ mode => do
    IO.FS.writeBinFile (textOf loc) bytes
    IO.setAccessRights (textOf loc) (rightsOf mode)
  | .link _ => return ()

/-- Removes what stands at a location. -/
def removeNode (loc : Location) : IO Unit := do
  let place := (← IO.currentDir) / textOf loc
  if ← place.isDir then IO.FS.removeDirAll place
  else if ← place.pathExists then IO.FS.removeFile place

/-- Writes back what changed. -/
def writeBack (before after : Disk) : IO Unit := do
  let (changed, gone) := differences before after
  gone.forM removeNode
  (changed.mergeSort fun a b => decide (a.1.length ≤ b.1.length)).forM fun e => writeNode e.1 e.2

/-! ### Running -/

/-- Shows what was printed and noted. -/
def showTranscript (h : Host) (least : Option Level) (colours : Bool) : IO Unit := do
  IO.print (h.output colours)
  (← IO.getStdout).flush
  match least with
  | none => return ()
  | some least => (h.notesFrom least).forM fun note => IO.eprintln s!"{note.1.name} {note.2}"

/-- Carries out a step on a disk, shows its transcript and writes back what changed. -/
def perform {α : Type} (d : Disk) (step : Act α) (least : Option Level) (colours : Bool) :
    IO (α × Disk) := do
  let (answer, h) := step.run ⟨d, []⟩
  showTranscript h least colours
  writeBack d h.disk
  return (answer, h.disk)

/-- Goes on watching until the program is stopped. -/
partial def watch (w : Commands.Watched) (least : Option Level) (colours : Bool) : IO UInt32 := do
  IO.sleep w.interval.milliseconds.toUInt32
  let storage := [w.placement.buckets.home, w.placement.buckets.lib]
  let d ← readTrees (← emptyDisk) (w.placement.sets.root :: storage)
  let ((placement, snapshot), _) ← perform d (w.placement.poll w.snapshot) least colours
  watch { w with placement := placement, snapshot := snapshot } least colours

/-- Whether the output is shown in colours. -/
def wantsColours : IO Bool := do
  if (← IO.getEnv "NO_COLOR").isSome then return false
  if (← IO.getEnv "FORCE_COLOR").isSome then return true
  (← IO.getStdout).isTty

/-- What a command finds around it on this machine. -/
def surroundings (executable : Path) : IO Surroundings := do
  let folders := ((← IO.getEnv "PATH").map (Text.split ':')).getD []
  return {
    network := .offline
    token := ← IO.getEnv "GITHUB_TOKEN"
    compiler := .external (folders.map Path.mk) Bytecode.Compiler.usualProgram
    system := "linux"
    processor := "x86_64"
    executable := .ok executable }

/-- Runs what a command line asks for. -/
def run (i : CommandLine.Invocation) : IO UInt32 := do
  let executable : Path := ⟨(← IO.appPath).toString⟩
  let colours ← wantsColours
  let d ← readTrees (← emptyDisk) [i.root]
  let file := match ((ProjectFile.readIn i.root).run ⟨d, []⟩).1 with
    | .ok file => file
    | .error _ => .empty
  let d ← readTrees d (treesOf ⟨i.root, file⟩ executable i.command)
  let (answer, d) ← perform d (Commands.run (← surroundings executable) i) i.logLevel colours
  match answer with
  | .error e =>
    IO.eprint (e.report d)
    return 1
  | .ok none => return 0
  | .ok (some w) => watch w i.logLevel colours

/-- Says why a command line is not carried out. -/
def refuse (e : CommandLine.UsageError) : IO UInt32 := do
  match e with
  | .displayVersion => IO.print CommandLine.UsageError.versionText
  | .displayHelp => IO.println "Usage: picogem [add|list|sync|update] [OPTIONS]"
  | _ => IO.eprintln "Usage: picogem [add|list|sync|update] [OPTIONS]"
  return e.exitCode.toUInt32

end GemCourier.Machine

def main (arguments : List String) : IO UInt32 :=
  match GemCourier.CommandLine.Invocation.ofWords arguments with
  | .error e => GemCourier.Machine.refuse e
  | .ok i => GemCourier.Machine.run i
