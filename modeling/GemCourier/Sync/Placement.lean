/-
GemCourier/Sync/Placement.lean

Where on the storage a source file goes.

A file below the library keeps its place below the `lib` bucket, and a file
right under the root goes flat into the `home` bucket.  Which of the two a file
is, is read off the components of its path, so a file `libfoo.rb` beside the
library is one of the root.
-/
import GemCourier.Sync.Sources
import GemCourier.Text.Quoted

namespace GemCourier.Sync

/-- The source sets of a project and the buckets of a storage. -/
structure Placement where
  sets : SourceSets
  buckets : Buckets
deriving DecidableEq, Repr

namespace Placement

/-- The destination of what lies `relative` to the library: below the bucket through names
only, and not the bucket itself. -/
def inLibrary? (buckets : Buckets) (relative : Path) : Option Path :=
  if relative.components ≠ [] ∧ relative.components.all Component.isName then
    some (buckets.lib.join relative)
  else none

/-- The destination of a file right under the root. -/
def inHome? (m : Placement) (source : Path) : Option Path :=
  if source.parent?.any (·.sameAs m.sets.root) then
    source.fileName?.map m.buckets.home.child
  else none

/-- The destination of a source file, if it belongs to a source set. -/
def destination? (m : Placement) (source : Path) : Option Path :=
  match m.sets.library.bind source.relativeTo? with
  | some relative => inLibrary? m.buckets relative
  | none => m.inHome? source

/-- How the library of a placement is shown in the log. -/
def showLibrary : Option Path → String
  | some p => s!"Some({Text.quotedPath p.text})"
  | none => "None"

/-- Resolves the source sets again, so a library that came or went is noticed. -/
def refresh (m : Placement) : Act Placement := do
  let sets ← SourceSets.resolve m.sets.root
  if sets.sameAs m.sets then return m
  Act.note .debug s!"Library directory changed to {showLibrary sets.library}"
  return { m with sets := sets }

end Placement

end GemCourier.Sync
