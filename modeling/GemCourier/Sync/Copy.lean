/-
GemCourier/Sync/Copy.lean

Copying source files to the storage: one file, and all of them once.

A file is read before anything is written, then the directory of its
destination is made sure of, then it is written; a file that cannot be read so
leaves its older copy alone.  A pass over all files first makes sure of both
buckets and gives up if it cannot.  After that failures are a matter of single
files: they are noted and reported, and the pass goes on.
-/
import GemCourier.Sync.Placement
import GemCourier.Sync.Scan
import GemCourier.Host.Directory

namespace GemCourier.Sync

/-- Why a file was not copied. -/
inductive CopyError where
  /-- The source could not be read. -/
  | read (path : Path) (fault : Fault)
  /-- The directory of the destination could not be made. -/
  | prepareDirectory (path : Path) (cause : DirectoryError)
  /-- The destination could not be written. -/
  | write (path : Path) (fault : Fault)
deriving DecidableEq, Repr

namespace CopyError

/-- The error in words, for the disk as it is now. -/
def message (d : Disk) : CopyError → String
  | read p _ => s!"Failed to read {d.describe p}"
  | prepareDirectory p _ => s!"Failed to prepare the directory for {d.describe p}"
  | write p _ => s!"Failed to write {d.describe p}"

end CopyError

/-- Why a pass was given up. -/
inductive PassError where
  /-- A bucket could not be made. -/
  | destinationRoot (path : Path) (cause : DirectoryError)
deriving DecidableEq, Repr

namespace PassError

/-- The error in words, for the disk as it is now. -/
def message (d : Disk) : PassError → String
  | destinationRoot p _ => s!"Failed to create destination root {d.describe p}"

end PassError

/-- What came of a pass. -/
structure PassReport where
  copied : Nat
  failures : List (Path × CopyError)
deriving DecidableEq, Repr

namespace Placement

/-- Writes the bytes of a source file to its destination. -/
def store (source destination : Path) (bytes : ByteArray) : Act (Except CopyError Unit) := do
  match ← Directory.ensureParent destination with
  | .error e => return .error (.prepareDirectory destination e)
  | .ok () =>
    match ← Act.change (·.writeFile destination bytes) with
    | .error fault => return .error (.write destination fault)
    | .ok () =>
      Act.print (.copied source.text destination.text)
      return .ok ()

/-- Copies one file, and answers its destination, if it has one. -/
def copyFile (m : Placement) (source : Path) : Act (Except CopyError (Option Path)) := do
  match m.destination? source with
  | none => return .ok none
  | some destination =>
    match (← Act.disk).readFile source with
    | .error fault => return .error (.read source fault)
    | .ok bytes => return (← store source destination bytes).map fun () => some destination

/-- Makes sure of both buckets. -/
def prepareBuckets (m : Placement) : Act (Except PassError Unit) := do
  match ← Directory.ensure m.buckets.home with
  | .error e => return .error (.destinationRoot m.buckets.home e)
  | .ok _ =>
    match ← Directory.ensure m.buckets.lib with
    | .error e => return .error (.destinationRoot m.buckets.lib e)
    | .ok _ => return .ok ()

/-- Copies some files, and reports what came of it. -/
def copyFiles (m : Placement) : List Path → Act PassReport
  | [] => return ⟨0, []⟩
  | source :: rest => do
    match ← m.copyFile source with
    | .ok (some _) =>
      let report ← m.copyFiles rest
      return { report with copied := report.copied + 1 }
    | .ok none =>
      Act.note .debug s!"{source} is not eligible for sync"
      m.copyFiles rest
    | .error e =>
      Act.note .warn s!"Skipping {source}: {e.message (← Act.disk)}"
      let report ← m.copyFiles rest
      return { report with failures := (source, e) :: report.failures }

/-- Copies every source file once. -/
def syncOnce (m : Placement) : Act (Except PassError PassReport) := do
  match ← m.prepareBuckets with
  | .error e => return .error e
  | .ok () =>
    let report ← m.copyFiles (← sources m.sets)
    Act.note .info s!"Copied {report.copied} file(s)"
    return .ok report

end Placement

end GemCourier.Sync
