/-
GemCourier/Release/Lookup.lean

Looking up whether a newer release of this program exists.

The look-up never fails: an error is noted and counts as no update.
-/
import GemCourier.Remote.GitHub

namespace GemCourier.Release

open Remote

/-- The repository in which the releases of this program are published. -/
def repository : Repository := ⟨"hayaokimura", "picoruby-gem-installer"⟩

/-- The releases, read with a token or without. -/
def remote (token : Option String) : GitHub :=
  GitHub.of repository "main" token

/-- The latest version, if it is newer than the running one. -/
def newer? (releases : GitHub) (network : Network) : Act (Option String) := do
  match ← perform (releases.latestRelease network) with
  | .ok latest =>
    if Version.isNewer latest Version.current then return some latest
    Act.note .debug s!"picogem {Version.current} is up to date (latest release {latest})"
    return none
  | .error e =>
    Act.note .debug s!"Update check failed: {e.message}"
    return none

end GemCourier.Release
