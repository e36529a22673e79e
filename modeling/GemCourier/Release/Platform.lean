/-
GemCourier/Release/Platform.lean

The platforms releases are published for, and the asset each one takes.
-/

namespace GemCourier.Platform

/-- How releases call an operating system. -/
def system? : String → Option String
  | "linux" => some "linux"
  | "macos" => some "darwin"
  | _ => none

/-- How releases call a processor. -/
def processor? : String → Option String
  | "x86_64" => some "x86_64"
  | "aarch64" => some "arm64"
  | _ => none

/-- The platform of an operating system on a processor, if releases are published for it. -/
def find? (os arch : String) : Option String :=
  match system? os, processor? arch with
  | some system, some processor => some s!"{system}-{processor}"
  | _, _ => none

/-- The asset that holds the executable for a platform. -/
def asset (platform : String) : String :=
  s!"picogem-{platform}"

end GemCourier.Platform
