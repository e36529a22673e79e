/-
GemCourier/Sync/Watch.lean

Watching a project: scans at intervals, and what is done about the changes.

One poll resolves the source sets again, takes a snapshot and applies what
changed since the one before: new and modified files are copied, deletions are
only reported.  The snapshot is taken before anything is copied and is what the
next poll compares with, whatever came of the copies.
-/
import GemCourier.Sync.Copy
import GemCourier.Sync.Snapshot
import GemCourier.Project.Interval

namespace GemCourier.Sync.Placement

/-- Copies a new or modified file and reports it, and says how many files were copied. -/
def applyUpsert (m : Placement) (change : Change) : Act Nat := do
  match ← m.copyFile change.path with
  | .ok (some _) =>
    Act.print (.tagged change.kind.tag change.kind.colour change.path.text)
    return 1
  | .ok none => return 0
  | .error e =>
    Act.note .warn s!"Failed to sync {change.path}: {e.message (← Act.disk)}"
    Act.print (.tagged "FAILED" .red (e.message (← Act.disk)))
    return 0

/-- Does what a change asks for, and says how many files were copied. -/
def applyOne (m : Placement) (change : Change) : Act Nat := do
  match change.kind with
  | .new | .modified => m.applyUpsert change
  | .deleted =>
    Act.print (.tagged change.kind.tag change.kind.colour
      s!"{change.path} (manual cleanup may be needed)")
    return 0

/-- Does what some changes ask for, and says how many files were copied. -/
def apply (m : Placement) : List Change → Act Nat
  | [] => return 0
  | change :: rest => do
    let here ← m.applyOne change
    return here + (← m.apply rest)

/-- One scan: the placement with its sets resolved again, and the snapshot for the next one. -/
def poll (m : Placement) (previous : Snapshot) : Act (Placement × Snapshot) := do
  let m ← m.refresh
  let current ← Snapshot.capture m.sets
  let changes := current.changesSince previous
  if !changes.isEmpty then
    Act.note .info s!"Detected {changes.length} change(s)"
    let _ ← m.apply changes
  return (m, current)

/-- The first snapshot of a watch. -/
def startWatch (m : Placement) (interval : Interval) : Act Snapshot := do
  let snapshot ← Snapshot.capture m.sets
  Act.note .info s!"Watching {snapshot.size} file(s), polling every {interval.shown}"
  return snapshot

/-- Some scans one after the other. -/
def polls : Nat → Placement → Snapshot → Act (Placement × Snapshot)
  | 0, m, snapshot => return (m, snapshot)
  | n + 1, m, snapshot => do
    let (m, snapshot) ← m.poll snapshot
    polls n m snapshot

end GemCourier.Sync.Placement
