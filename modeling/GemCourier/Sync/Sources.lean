/-
GemCourier/Sync/Sources.lean

The local directories that are synced, and the buckets they are synced to.

The root of a project is synced flat and its library directory with all that
lies below it.  A project has a library only while `lib` below its root is a
directory, which is looked up when the source sets are resolved.
-/
import GemCourier.Host.Basic

namespace GemCourier.Sync

/-- The directory below a project's root that holds its library. -/
def libraryName : String := "lib"

/-- The directories of a project that are synced. -/
structure SourceSets where
  root : Path
  library : Option Path
deriving DecidableEq, Repr

namespace SourceSets

/-- Where the library of a project would be. -/
def candidate (root : Path) : Path := root.child libraryName

/-- The source sets of a project as the disk has them now. -/
def on (d : Disk) (root : Path) : SourceSets :=
  ⟨root, if d.isFolder (candidate root) then some (candidate root) else none⟩

/-- Resolves the source sets of a project. -/
def resolve (root : Path) : Act SourceSets := do
  let sets := on (← Act.disk) root
  if sets.library.isNone then
    Act.note .debug
      s!"No library directory at {candidate root}, only the project root is synced"
  return sets

/-- Whether two libraries are the same place, or both missing. -/
def sameLibrary : Option Path → Option Path → Bool
  | some p, some q => p.sameAs q
  | none, none => true
  | _, _ => false

/-- Whether two source sets are the same places. -/
def sameAs (s t : SourceSets) : Bool :=
  s.root.sameAs t.root && sameLibrary s.library t.library

end SourceSets

/-- The two directories on a storage that files are copied to. -/
structure Buckets where
  home : Path
  lib : Path
deriving DecidableEq, Repr

/-- The buckets of a storage. -/
def Buckets.on (storage : Path) : Buckets :=
  ⟨storage.child "home", storage.child "lib"⟩

end GemCourier.Sync
