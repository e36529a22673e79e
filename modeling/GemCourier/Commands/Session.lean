/-
GemCourier/Commands/Session.lean

One run of the program: the project file is read, a newer release is pointed
out, and the command is carried out.

The look for a newer release never changes what the command does.  It is left
out when the command line says so, and when the command is the update itself.
-/
import GemCourier.Commands.Add
import GemCourier.Commands.List
import GemCourier.Commands.Sync
import GemCourier.Commands.Update

namespace GemCourier.Commands

open CommandLine

/-- Why a run failed. -/
inductive SessionError where
  | config (cause : ProjectFileError)
  | add (cause : AddError)
  | list (cause : ListError)
  | sync (cause : SyncError)
  | update (cause : UpdateError)
deriving DecidableEq, Repr

namespace SessionError

/-- The error in words. -/
def message : SessionError → String
  | config _ => "Critical failure encountered during configuration stage"
  | add _ => "Failed to add the gem"
  | list _ => "Failed to list the gems"
  | sync _ => "Failed to sync to storage"
  | update _ => "Failed to update picogem"

end SessionError

/-- Whether an invocation looks for a newer release first. -/
def looksForUpdate (i : Invocation) : Bool :=
  !i.noUpdateCheck && !i.command.isUpdate

/-- Points out a newer release, if there is one. -/
def pointOutUpdate (s : Surroundings) : Act Unit := do
  match ← Release.newer? (Release.remote s.token) s.network with
  | none => return ()
  | some latest =>
    Act.print (.plain s!"New version available: {latest} (current: {Version.current})")
    Act.print (.plain "To update, run: picogem update")
    Act.print .blank

/-- An outcome with nothing left to watch. -/
def settled {ε : Type} (wrap : ε → SessionError) (outcome : Except ε Unit) :
    Except SessionError (Option Watched) :=
  match outcome with
  | .error e => .error (wrap e)
  | .ok () => .ok none

/-- Carries out a command in a project. -/
def perform (s : Surroundings) (p : Project) :
    Command → Act (Except SessionError (Option Watched))
  | .add package remote output compile =>
    return settled .add (← add s p package remote output compile)
  | .list remote => return settled .list (← list s p remote)
  | .sync storage watch interval => do
    match ← sync p storage watch interval with
    | .error e => return .error (.sync e)
    | .ok watched => return .ok watched
  | .update check => return settled .update (← update s check)

/-- Runs what a command line asks for, and answers what is watched from then on. -/
def run (s : Surroundings) (i : Invocation) : Act (Except SessionError (Option Watched)) := do
  match ← ProjectFile.readIn i.root with
  | .error e => return .error (.config e)
  | .ok file =>
    Act.note .debug s!"Loaded config: {file.shown}"
    if looksForUpdate i then pointOutUpdate s
    Act.note .debug s!"Running command '{i.command.name}'"
    perform s ⟨i.root, file⟩ i.command

end GemCourier.Commands
