/-
GemCourier/Host/Directory.lean

Making sure that a directory exists, and clearing a scratch directory away.

`ensure` goes along the components of a path from the outside in.  Each part
has to be a directory already or is made one, so a second call finds nothing
left to do.  `clearAway` never fails: whatever comes of it is noted, and a tree
that is not there counts as cleared.
-/
import GemCourier.Host.Basic

namespace GemCourier

/-- Why a directory could not be made sure of. -/
inductive DirectoryError where
  /-- Something other than a directory stands there. -/
  | notDirectory (path : Path)
  /-- What stands there could not be found out. -/
  | inspect (path : Path) (fault : Fault)
  /-- The directory could not be made. -/
  | create (path : Path) (fault : Fault)
deriving DecidableEq, Repr

namespace DirectoryError

/-- The error in words, for the disk as it is now. -/
def message (d : Disk) : DirectoryError → String
  | notDirectory p => s!"{d.describe p} exists but is not a directory"
  | inspect p _ => s!"Failed to inspect {d.describe p}"
  | create p _ => s!"Failed to create directory {d.describe p}"

end DirectoryError

namespace Directory

/-- Whether a component is passed over, being there in any case. -/
def isGiven : Component → Bool
  | .root => true
  | .here => true
  | _ => false

/-- Makes a directory that was not there. -/
def create (path : Path) : Act (Except DirectoryError Unit) := do
  match ← Act.change (·.makeFolder path) with
  | .ok () =>
    Act.note .debug s!"Created directory {path}"
    return .ok ()
  | .error fault => return .error (.create path fault)

/-- Makes sure of one directory whose parent exists, and says how many were made. -/
def ensureOne (path : Path) : Act (Except DirectoryError Nat) := do
  match (← Act.disk).node path with
  | .ok .folder => return .ok 0
  | .ok _ => return .error (.notDirectory path)
  | .error .notFound => return (← create path).map fun () => 1
  | .error fault => return .error (.inspect path fault)

/-- Makes sure of the directories along some components, read from `part` on. -/
def ensureFrom (part : Path) (made : Nat) : List Component → Act (Except DirectoryError Nat)
  | [] => return .ok made
  | c :: rest => do
    let next := part.child c.text
    if isGiven c then ensureFrom next made rest
    else match ← ensureOne next with
      | .ok n => ensureFrom next (made + n) rest
      | .error e => return .error e

/-- Makes sure that a directory and all its ancestors exist, and says how many were made. -/
def ensure (path : Path) : Act (Except DirectoryError Nat) :=
  ensureFrom ⟨""⟩ 0 path.components

/-- Makes sure of the directory a path lies in, if it lies in one. -/
def ensureParent (path : Path) : Act (Except DirectoryError Unit) := do
  match path.parent? with
  | none => return .ok ()
  | some parent => return (← ensure parent).map fun _ => ()

/-- Removes a scratch directory with all it holds, and says whether nothing of it is left. -/
def clearAway (path : Path) : Act Bool := do
  let d ← Act.disk
  if !d.holds path then
    Act.note .debug s!"Nothing to clean up at {path}"
    return true
  match d.removeTree path with
  | (none, cleared) =>
    Act.setDisk cleared
    Act.note .debug s!"Removed {path}"
    return true
  | (some fault, cleared) =>
    Act.setDisk cleared
    Act.note .warn s!"Failed to remove {path}: {fault.message}"
    return false

end Directory

end GemCourier
