/-
GemCourier/Sync/Snapshot.lean

The times of the watched files at one instant, and what changed between two.

A snapshot lists paths with times, no path twice, where paths with the same
components are the same path.  A path recorded again keeps its spelling, takes
the new time and goes to the end.  Changes come in two parts: what is new or
has another time, in the order of the later snapshot, and then what is gone, in
the order of the earlier one.
-/
import GemCourier.Sync.Scan

namespace GemCourier.Sync

/-- Paths with the times of their last change. -/
structure Snapshot where
  entries : List (Path × Int)
deriving DecidableEq, Repr, Inhabited

/-- What happened to a watched file. -/
inductive ChangeKind where
  | new
  | modified
  | deleted
deriving DecidableEq, Repr

namespace ChangeKind

/-- The tag a change is reported with. -/
def tag : ChangeKind → String
  | new => "NEW"
  | modified => "MODIFIED"
  | deleted => "DELETED"

/-- The colour of the tag. -/
def colour : ChangeKind → Console.Colour
  | new => .green
  | modified => .yellow
  | deleted => .red

end ChangeKind

/-- A difference between two snapshots. -/
structure Change where
  kind : ChangeKind
  path : Path
deriving DecidableEq, Repr

namespace Snapshot

/-- The snapshot of nothing. -/
def empty : Snapshot := ⟨[]⟩

/-- The entry of a path. -/
def entry? (s : Snapshot) (p : Path) : Option (Path × Int) :=
  s.entries.find? fun e => e.1.sameAs p

/-- The time recorded for a path. -/
def time? (s : Snapshot) (p : Path) : Option Int :=
  (s.entry? p).map (·.2)

/-- The snapshot with a path recorded. -/
def insert (s : Snapshot) (p : Path) (time : Int) : Snapshot :=
  let spelling := ((s.entry? p).map (·.1)).getD p
  ⟨s.entries.filter (fun e => !e.1.sameAs p) ++ [(spelling, time)]⟩

/-- The snapshot that records some paths one after the other. -/
def ofList (entries : List (Path × Int)) : Snapshot :=
  entries.foldl (fun s e => s.insert e.1 e.2) empty

/-- How many files the snapshot has. -/
def size (s : Snapshot) : Nat := s.entries.length

/-- The paths of the snapshot in its order. -/
def paths (s : Snapshot) : List Path := s.entries.map (·.1)

/-- Whether two lists record the same paths with the same times in the same order. -/
def sameEntries : List (Path × Int) → List (Path × Int) → Bool
  | [], [] => true
  | e :: rest, f :: rest' => e.1.sameAs f.1 && e.2 == f.2 && sameEntries rest rest'
  | _, _ => false

/-- Whether two snapshots have the same files with the same times in the same order. -/
def sameAs (s t : Snapshot) : Bool :=
  sameEntries s.entries t.entries

/-- What an entry of the later snapshot says beside the earlier one. -/
def changeOf? (previous : Snapshot) (e : Path × Int) : Option Change :=
  match previous.time? e.1 with
  | none => some ⟨.new, e.1⟩
  | some before => if before = e.2 then none else some ⟨.modified, e.1⟩

/-- What changed from the earlier snapshot to this one. -/
def changesSince (current previous : Snapshot) : List Change :=
  current.entries.filterMap (changeOf? previous) ++
    (previous.paths.filter fun p => (current.time? p).isNone).map (⟨.deleted, ·⟩)

/-- The times of some files; one whose time cannot be read is left out. -/
def timesOn (d : Disk) (files : List Path) : List (Path × Int) :=
  files.filterMap fun p => match d.modified p with
    | .ok time => some (p, time)
    | .error _ => none

/-- The snapshot of a project as the disk has it. -/
def on (d : Disk) (sets : SourceSets) : Snapshot :=
  ofList (timesOn d (sourcesOn d sets))

/-- Notes the files that are left out of a snapshot. -/
def reportLeftOut (d : Disk) : List Path → Act Unit
  | [] => return ()
  | p :: rest => do
    match d.modified p with
    | .ok _ => pure ()
    | .error fault => Act.note .debug s!"Leaving {p} out of the snapshot: {fault.message}"
    reportLeftOut d rest

/-- Takes the snapshot of a project. -/
def capture (sets : SourceSets) : Act Snapshot := do
  let files ← sources sets
  let d ← Act.disk
  reportLeftOut d files
  return ofList (timesOn d files)

end Snapshot

end GemCourier.Sync
