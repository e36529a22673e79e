/-
GemCourier/Commands/List.lean

The command that lists the gems there are: every directory among the entries of
the directory for gems is one.
-/
import GemCourier.Commands.Surroundings
import GemCourier.Project.Settings

namespace GemCourier.Commands

open Remote

/-- Why the gems were not listed. -/
inductive ListError where
  /-- The directory for gems could not be listed. -/
  | listing (path : String) (cause : RemoteError)
deriving DecidableEq, Repr

namespace ListError

/-- The error in words. -/
def message : ListError → String
  | listing path _ => s!"Failed to fetch the gem list from '{path}'"

end ListError

/-- The names of the gems in a directory, in the order of its listing. -/
def gemNames (tree : RemoteTree) (gemsDir : String) : Act (Except ListError (List String)) := do
  match ← ask (.list gemsDir) (tree.list gemsDir) with
  | .error cause => return .error (.listing gemsDir cause)
  | .ok entries =>
    Act.note .debug s!"{entries.length} entries under {gemsDir}"
    return .ok ((entries.filter Entry.isDirectory).map (·.name))

/-- How the gems are shown. -/
def gemLines (gems : List String) : List Console.Line :=
  if gems = [] then [.plain "No gems found."]
  else .plain "Available gems:" :: gems.map (fun g => .plain s!"  {g}") ++
    [.blank, .plain s!"Total: {gems.length} gems"]

/-- Lists the gems there are. -/
def list (s : Surroundings) (p : Project) (flags : CommandLine.RemoteFlags) :
    Act (Except ListError Unit) := do
  let settings := p.remoteSettings flags
  Act.print (.header "PicoRuby Runtime Gems")
  Act.print (.field "Repository" settings.repository.text)
  Act.print (.field "Branch" settings.branch)
  Act.print (.field "Directory" settings.gemsDir)
  Act.print .blank
  let tree := (GitHub.of settings.repository settings.branch s.token).tree s.network
  match ← gemNames tree settings.gemsDir with
  | .error e => return .error e
  | .ok gems =>
    (gemLines gems).forM Act.print
    return .ok ()

end GemCourier.Commands
