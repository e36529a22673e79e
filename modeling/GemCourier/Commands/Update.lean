/-
GemCourier/Commands/Update.lean

The command that replaces the running program by its latest release.

The latest version is looked up first, and nothing more is done if it is not
newer or if the command is only to check.
-/
import GemCourier.Commands.Surroundings
import GemCourier.Release.Installation
import GemCourier.Release.Lookup
import GemCourier.Release.Platform

namespace GemCourier.Commands

open Remote

/-- Why the program was not updated. -/
inductive UpdateError where
  /-- The latest version could not be looked up. -/
  | latestRelease (cause : RemoteError)
  /-- There are no releases for this machine. -/
  | unsupportedPlatform (system processor : String)
  /-- The executable could not be downloaded. -/
  | download (asset : String) (cause : RemoteError)
  /-- The executable could not be installed. -/
  | installation (cause : Release.InstallError)
deriving DecidableEq, Repr

namespace UpdateError

/-- The error in words. -/
def message : UpdateError → String
  | latestRelease _ => "Failed to get the latest version"
  | unsupportedPlatform system processor =>
    s!"No release is published for {system}-{processor}"
  | download asset _ => s!"Failed to download '{asset}'"
  | installation _ => "Failed to install the new version"

end UpdateError

/-- Puts a downloaded executable in the place of the running one. -/
def replaceExecutable (s : Surroundings) (latest : String) (bytes : ByteArray) :
    Act (Except UpdateError Unit) := do
  match s.executable with
  | .error fault => return .error (.installation (.locate fault))
  | .ok target =>
    Act.print (.field "Install path" ((← Act.disk).describe target))
    match ← Release.install bytes target with
    | .error e => return .error (.installation e)
    | .ok () =>
      Act.print .blank
      Act.print (.success "Update completed successfully!")
      Act.print (.plain s!"picogem has been updated to v{latest}")
      return .ok ()

/-- Downloads the executable of a release for this machine and installs it. -/
def installRelease (s : Surroundings) (releases : GitHub) (latest : String) :
    Act (Except UpdateError Unit) := do
  match Platform.find? s.system s.processor with
  | none => return .error (.unsupportedPlatform s.system s.processor)
  | some platform =>
    let asset := Platform.asset platform
    Act.print (.field "Platform" platform)
    Act.print (.plain "Downloading...")
    match ← perform (releases.downloadAsset s.network latest asset) with
    | .error cause => return .error (.download asset cause)
    | .ok bytes =>
      Act.print (.plain s!"Downloaded {bytes.size} bytes")
      replaceExecutable s latest bytes

/-- Replaces the running program by its latest release, or only says whether there is one. -/
def update (s : Surroundings) (check : Bool) : Act (Except UpdateError Unit) := do
  Act.print (.header "picogem update")
  Act.print .blank
  Act.print (.plain "Checking for updates...")
  let releases := Release.remote s.token
  match ← perform (releases.latestRelease s.network) with
  | .error cause => return .error (.latestRelease cause)
  | .ok latest =>
    Act.print (.field "Current version" Version.current)
    Act.print (.field "Latest version" latest)
    Act.print .blank
    if !Version.isNewer latest Version.current then
      Act.print (.success "You are already using the latest version.")
      return .ok ()
    Act.print (.plain "New version available!")
    if check then
      Act.print (.plain "Run 'picogem update' to install it.")
      return .ok ()
    installRelease s releases latest

end GemCourier.Commands
