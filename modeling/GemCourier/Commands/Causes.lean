/-
GemCourier/Commands/Causes.lean

The causes of a failed run in words, from the outer one to the inner one, for
the person who reads the failure.
-/
import GemCourier.Commands.Session

namespace GemCourier

/-- The causes of an error about a directory. -/
def DirectoryError.causes : DirectoryError → List String
  | notDirectory _ => []
  | inspect _ fault => [fault.message]
  | create _ fault => [fault.message]

/-- The causes of an error about the project file. -/
def ProjectFileError.causes : ProjectFileError → List String
  | read _ fault => [fault.message]
  | invalidRepository cause => [cause.message]
  | _ => []

/-- The causes of an error in a download. -/
def Remote.FetchError.causes (d : Disk) : FetchError → List String
  | listingFailed _ cause => [cause.message]
  | invalidName _ => []
  | downloadFailed _ cause => [cause.message]
  | prepareDirectory _ cause => cause.message d :: cause.causes
  | writeFailed _ fault => [fault.message]

/-- The causes of an error in an installation. -/
def Release.InstallError.causes : InstallError → List String
  | locate fault => [fault.message]
  | stage _ fault => [fault.message]
  | replace _ _ fault => [fault.message]
  | permission _ fault => [fault.message]

namespace Commands

/-- The causes of a failed update. -/
def UpdateError.causes (d : Disk) : UpdateError → List String
  | latestRelease cause => [cause.message]
  | unsupportedPlatform .. => []
  | download _ cause => [cause.message]
  | installation cause => cause.message d :: cause.causes

/-- The causes of a failed run. -/
def SessionError.causes (d : Disk) : SessionError → List String
  | config cause => cause.message :: cause.causes
  | add cause => cause.message :: match cause with
    | .download _ inner => inner.message d :: inner.causes d
  | list cause => cause.message :: match cause with
    | .listing _ inner => [inner.message]
  | sync cause => cause.message :: match cause with
    | .missingStorage => []
    | .initialPass inner => inner.message d :: match inner with
      | .destinationRoot _ directory => directory.message d :: directory.causes
  | update cause => cause.message :: cause.causes d

/-- A failed run in words, with its causes one to a line. -/
def SessionError.report (d : Disk) (e : SessionError) : String :=
  let causes := e.causes d
  if causes = [] then s!"Error: {e.message}\n"
  else s!"Error: {e.message}\n\nCaused by:\n" ++
    String.join (causes.map fun cause => s!"  {cause}\n")

end Commands

end GemCourier
