/-
GemCourier/Release/Installation.lean

Replacing an executable by another one.

The new bytes are first written to a staging file beside the executable and then
moved over it, so the old executable stays as it was until the new one is
complete.  Last the file is made runnable.
-/
import GemCourier.Host.Basic

namespace GemCourier.Release

/-- Why an executable was not replaced, or not completely. -/
inductive InstallError where
  /-- It is not known where the executable is. -/
  | locate (fault : Fault)
  /-- The staging file could not be written. -/
  | stage (staged : Path) (fault : Fault)
  /-- The staging file could not be moved. -/
  | replace (staged path : Path) (fault : Fault)
  /-- The new executable could not be made runnable. -/
  | permission (path : Path) (fault : Fault)
deriving DecidableEq, Repr

namespace InstallError

/-- The error in words, for the disk as it is now. -/
def message (d : Disk) : InstallError → String
  | locate _ => "Could not determine where picogem is installed"
  | stage staged _ => s!"Failed to write {d.describe staged}"
  | replace staged path _ =>
    s!"Failed to replace {d.describe path}, move {d.describe staged} over it manually"
  | permission path _ => s!"Failed to make {d.describe path} executable"

end InstallError

/-- The staging file of an executable. -/
def stagingPath (path : Path) : Path :=
  ⟨path.text ++ ".new"⟩

/-- Makes the executable runnable. -/
def makeRunnable (path : Path) : Act (Except InstallError Unit) := do
  match ← Act.change (·.setMode path Disk.runnableMode) with
  | .error fault => return .error (.permission path fault)
  | .ok () =>
    Act.note .info s!"Installed {(← Act.disk).describe path}"
    return .ok ()

/-- Puts bytes in the place of an executable. -/
def install (bytes : ByteArray) (path : Path) : Act (Except InstallError Unit) := do
  let staged := stagingPath path
  Act.note .debug s!"Writing {bytes.size} byte(s) to {(← Act.disk).describe staged}"
  match ← Act.change (·.writeFile staged bytes) with
  | .error fault => return .error (.stage staged fault)
  | .ok () =>
    match ← Act.change (·.move staged path) with
    | .error fault => return .error (.replace staged path fault)
    | .ok () => makeRunnable path

end GemCourier.Release
