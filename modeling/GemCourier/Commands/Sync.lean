/-
GemCourier/Commands/Sync.lean

The command that copies the sources of a project to a storage, once or, when it
is asked to watch, again and again.

What is watched after the first pass is the answer of the command, for the
watching goes on until it is stopped from outside.
-/
import GemCourier.Project.Settings
import GemCourier.Sync.Watch

namespace GemCourier.Commands

open Sync

/-- Why the sources were not copied. -/
inductive SyncError where
  /-- Neither the command line nor the project file names a storage. -/
  | missingStorage
  /-- The first pass was given up. -/
  | initialPass (cause : PassError)
deriving DecidableEq, Repr

namespace SyncError

/-- The error in words. -/
def message : SyncError → String
  | missingStorage =>
    "No storage given, pass it as an argument or set 'storage' in picogem.yaml"
  | initialPass _ => "Sync failed"

end SyncError

/-- A watch that has begun: what is watched, the last snapshot, and the time between two
scans. -/
structure Watched where
  placement : Placement
  snapshot : Snapshot
  interval : Interval

/-- How a pass is shown. -/
def passLines (d : Disk) (r : PassReport) : List Console.Line :=
  r.failures.map (fun f => .failure s!"  failed {f.1}: {f.2.message d}") ++
    [.blank,
      if r.failures.isEmpty then .success s!"Sync completed! ({r.copied} file(s))"
      else .failure s!"Synced {r.copied} file(s), {r.failures.length} failed."]

/-- Begins to watch. -/
def beginWatch (m : Placement) (interval : Interval) : Act Watched := do
  Act.print .blank
  Act.print (.plain "Watching for changes (Ctrl+C to stop)...")
  return ⟨m, ← m.startWatch interval, interval⟩

/-- Copies the sources of a project to a storage, and answers what is watched from then on. -/
def sync (p : Project) (storage : Option Path) (watch : Bool) (interval : Option Interval) :
    Act (Except SyncError (Option Watched)) := do
  match p.storage? storage with
  | none => return .error .missingStorage
  | some storage =>
    let sets ← SourceSets.resolve p.root
    let d ← Act.disk
    Act.print (.header "picogem sync")
    Act.print (.field "Source" (d.describe sets.root))
    Act.print (.field "Library" ((sets.library.map d.describe).getD "(none)"))
    Act.print (.field "Storage" (d.describe storage))
    Act.print .blank
    let m : Placement := ⟨sets, Buckets.on storage⟩
    match ← m.syncOnce with
    | .error cause => return .error (.initialPass cause)
    | .ok report =>
      (passLines (← Act.disk) report).forM Act.print
      if watch then return .ok (some (← beginWatch m (p.pollInterval interval)))
      else return .ok none

end GemCourier.Commands
