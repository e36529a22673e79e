/-
GemCourier/Bytecode/Install.lean

Installing a workspace as bytecode.

Every file below the workspace has a target at the same place below the
destination.  A script is compiled to its target, whose extension says so, and
any other file is copied.  Failures are a matter of single files: each is noted
and reported, and the others go on.
-/
import GemCourier.Bytecode.Compiler
import GemCourier.Host.Directory
import GemCourier.Sync.Scan

namespace GemCourier.Bytecode

/-- Why a file was not installed. -/
inductive InstallError where
  /-- The directory of the target could not be made. -/
  | prepareDirectory (target : Path) (cause : DirectoryError)
  /-- The script was not compiled. -/
  | compile (cause : CompileError)
  /-- The file could not be read. -/
  | read (source : Path) (fault : Fault)
  /-- The target could not be written. -/
  | write (target : Path) (fault : Fault)
deriving DecidableEq, Repr

namespace InstallError

/-- The error in words, for the disk as it is now. -/
def message (d : Disk) : InstallError → String
  | prepareDirectory target _ => s!"Failed to prepare the directory for {d.describe target}"
  | compile cause => cause.message d
  | read source _ => s!"Failed to read {d.describe source}"
  | write target _ => s!"Failed to write {d.describe target}"

end InstallError

/-- The accounts of the files of a workspace, each list in the order of the walk. -/
structure InstallReport where
  compiled : List Path
  copied : List Path
  failures : List (Path × InstallError)
deriving DecidableEq, Repr

namespace InstallReport

/-- The report on nothing. -/
def nothing : InstallReport := ⟨[], [], []⟩

/-- Whether nothing failed. -/
def isComplete (r : InstallReport) : Bool := r.failures.isEmpty

end InstallReport

/-- Whether a file is compiled, as against copied. -/
def isScript (source : Path) : Bool :=
  source.extension? = some Sync.scriptExtension

/-- Where a file that lies `relative` to the workspace is installed. -/
def targetOf (destination source relative : Path) : Path :=
  if isScript source then (destination.join relative).withExtension Sync.bytecodeExtension
  else destination.join relative

/-- Copies a file to its target. -/
def copyTo (source target : Path) : Act (Except InstallError Unit) := do
  match (← Act.disk).readFile source with
  | .error fault => return .error (.read source fault)
  | .ok bytes =>
    match ← Act.change (·.writeFile target bytes) with
    | .error fault => return .error (.write target fault)
    | .ok () => return .ok ()

/-- Installs a file at its target. -/
def installAt (compiler : Compiler) (source target : Path) : Act (Except InstallError Unit) := do
  match ← Directory.ensureParent target with
  | .error e => return .error (.prepareDirectory target e)
  | .ok () =>
    if isScript source then
      match ← compiler.compile source target with
      | .error e => return .error (.compile e)
      | .ok () => return .ok ()
    else copyTo source target

/-- Installs some files of a workspace, and accounts for them. -/
def installAll (compiler : Compiler) (workspace destination : Path) :
    List Path → Act InstallReport
  | [] => return .nothing
  | source :: rest => do
    match source.relativeTo? workspace with
    | none => installAll compiler workspace destination rest
    | some relative =>
      let target := targetOf destination source relative
      match ← installAt compiler source target with
      | .error e =>
        Act.note .warn s!"Failed to install {source}: {e.message (← Act.disk)}"
        let report ← installAll compiler workspace destination rest
        return { report with failures := (source, e) :: report.failures }
      | .ok () =>
        let report ← installAll compiler workspace destination rest
        if isScript source then return { report with compiled := target :: report.compiled }
        else return { report with copied := target :: report.copied }

/-- Installs all files of a workspace, and accounts for them. -/
def install (compiler : Compiler) (workspace destination : Path) : Act InstallReport := do
  let found := (← Act.disk).leavesBelow workspace
  Finding.report found
  installAll compiler workspace destination (found.filterMap Finding.leaf?)

end GemCourier.Bytecode
