/-
GemCourier/Sync/Scan.lean

Walking through directories, and the files of a project that are synced.

A walk visits what a directory holds in the order of names and goes into every
directory on the way, links to directories included.  Links may lead in a
circle, but a path leads through forty links at most and between two of them
goes down at most as many names as the disk is deep, so `walkBound` is more
than the length of any way and stands in for the unbounded walk.

The root of a project gives its scripts, the library gives scripts and compiled
files at any depth.  A directory that cannot be read gives nothing.
-/
import GemCourier.Sync.Sources

namespace GemCourier

/-- What a walk comes upon. -/
inductive Finding where
  /-- Something that is no directory. -/
  | leaf (path : Path)
  /-- A directory that could not be read. -/
  | unreadable (folder : Path) (fault : Fault)
deriving DecidableEq, Repr

namespace Finding

/-- The path found, if it is no directory. -/
def leaf? : Finding → Option Path
  | leaf p => some p
  | unreadable .. => none

/-- Notes for the log what could not be read. -/
def report : List Finding → Act Unit
  | [] => return ()
  | .leaf _ :: rest => report rest
  | .unreadable folder fault :: rest => do
    Act.note .warn s!"Failed to read directory {folder}: {fault.message}"
    report rest

end Finding

namespace Disk

/-- How many names the deepest location has. -/
def depth (d : Disk) : Nat :=
  (d.nodes.map fun entry => entry.1.length).foldl max 0

/-- More steps than a walk can take. -/
def walkBound (d : Disk) : Nat :=
  (mostLinks + 1) * (d.depth + 1)

/-- What a directory holds, one after the other. -/
def childrenOf (d : Disk) (folder : Path) : Except Fault (List Path) :=
  (d.names folder).map fun names => names.map folder.child

/-- All that is found below a directory within a number of steps. -/
def walkWithin (d : Disk) : Nat → Path → List Finding
  | 0, _ => []
  | steps + 1, folder =>
    match d.childrenOf folder with
    | .error fault => [.unreadable folder fault]
    | .ok children => children.flatMap fun child =>
        if d.isFolder child then d.walkWithin steps child else [.leaf child]

/-- All that is found below a directory. -/
def leavesBelow (d : Disk) (folder : Path) : List Finding :=
  d.walkWithin d.walkBound folder

end Disk

namespace Sync

/-- The extension of scripts. -/
def scriptExtension : String := "rb"

/-- The extension of compiled files. -/
def bytecodeExtension : String := "mrb"

/-- Whether the path leads to a file with one of the extensions. -/
def isSource (d : Disk) (extensions : List String) (p : Path) : Bool :=
  d.isFile p && p.extension?.any extensions.contains

/-- What the scan of the root gives. -/
def rootFindings (d : Disk) (sets : SourceSets) : List Finding :=
  match d.childrenOf sets.root with
  | .error fault => [.unreadable sets.root fault]
  | .ok children =>
    let scripts := children.filter fun p =>
      !sets.library.any p.sameAs && isSource d [scriptExtension] p
    scripts.map .leaf

/-- What the scan of the library gives. -/
def libraryFindings (d : Disk) (library : Path) : List Finding :=
  (d.leavesBelow library).filter fun
    | .leaf p => isSource d [scriptExtension, bytecodeExtension] p
    | .unreadable .. => true

/-- What the scan of a project gives: first its root, then its library. -/
def findings (d : Disk) (sets : SourceSets) : List Finding :=
  rootFindings d sets ++
    match sets.library with
    | some library => libraryFindings d library
    | none => []

/-- The source files of a project. -/
def sourcesOn (d : Disk) (sets : SourceSets) : List Path :=
  (findings d sets).filterMap Finding.leaf?

/-- Lists the source files of a project. -/
def sources (sets : SourceSets) : Act (List Path) := do
  let d ← Act.disk
  Finding.report (findings d sets)
  return sourcesOn d sets

end Sync

end GemCourier
