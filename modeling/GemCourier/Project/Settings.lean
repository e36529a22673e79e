/-
GemCourier/Project/Settings.lean

The settings a command works with.

Each of them is what a flag says, else what the project file says, else a
default of its own, independently of all others.  A storage has no default, and
the output directory is taken from the root of the project.
-/
import GemCourier.CommandLine.Invocation
import GemCourier.Project.File

namespace GemCourier

/-- A project: its root and what its file sets. -/
structure Project where
  root : Path
  file : ProjectFile
deriving DecidableEq, Repr

/-- Where gems are looked up. -/
structure RemoteSettings where
  repository : Repository
  branch : String
  gemsDir : String
deriving DecidableEq, Repr

namespace Project

/-- The repository gems come from by default. -/
def defaultRepository : Repository := ⟨"picoruby", "picoruby"⟩

/-- The branch that is read by default. -/
def defaultBranch : String := "master"

/-- The directory gems are in by default. -/
def defaultGemsDir : String := "runtime_gems"

/-- The directory gems go to by default. -/
def defaultOutput : Path := ⟨"lib"⟩

/-- Where gems are looked up. -/
def remoteSettings (p : Project) (flags : CommandLine.RemoteFlags) : RemoteSettings :=
  { repository := (flags.repo.or p.file.repository).getD defaultRepository
    branch := (flags.branch.or p.file.branch).getD defaultBranch
    gemsDir := (flags.dir.or p.file.gemsDir).getD defaultGemsDir }

/-- The directory gems go to. -/
def outputDir (p : Project) (flag : Option Path) : Path :=
  p.root.join ((flag.or p.file.output).getD defaultOutput)

/-- The storage sources are copied to. -/
def storage? (p : Project) (flag : Option Path) : Option Path :=
  flag.or p.file.storage

/-- The time between two scans. -/
def pollInterval (p : Project) (flag : Option Interval) : Interval :=
  (flag.or p.file.pollInterval).getD .second

end Project

end GemCourier
