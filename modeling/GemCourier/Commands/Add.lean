/-
GemCourier/Commands/Add.lean

The command that downloads a gem.

A gem goes into the directory of its name in the output directory, either as it
is or, when it is compiled, by way of a workspace beside it.  The workspace is
cleared away whatever comes of the download.  Files that could not be fetched or
installed are shown and do not fail the command; only a failed listing of the
gem itself does.
-/
import GemCourier.Bytecode.Install
import GemCourier.Commands.Surroundings
import GemCourier.Project.Settings
import GemCourier.Remote.Download

namespace GemCourier.Commands

open Remote

/-- Why a gem was not downloaded. -/
inductive AddError where
  /-- The directory of the gem could not be listed. -/
  | download (package : String) (cause : FetchError)
deriving DecidableEq, Repr

namespace AddError

/-- The error in words. -/
def message : AddError → String
  | download package _ => s!"Download of '{package}' failed"

/-- Whether the remote answered that the gem does not exist. -/
def isNotFound : AddError → Bool
  | download _ (.listingFailed _ cause) => cause.status? == some 404
  | _ => false

end AddError

/-! ### Reports -/

/-- A line on something that failed. -/
def failedLine (what message : String) : Console.Line :=
  .failure s!"  failed {what}: {message}"

/-- How a download is shown. -/
def fetchLines (d : Disk) (r : FetchReport) : List Console.Line :=
  r.saved.map (fun p => .plain s!"  saved {p}") ++
    r.failures.map (fun f => failedLine f.1 (f.2.message d)) ++
    [.blank,
      if r.isComplete then
        .success s!"Download completed successfully! ({r.saved.length} file(s))"
      else
        .failure
          s!"Downloaded {r.saved.length} file(s), {r.failures.length} could not be fetched."]

/-- How an installation is shown. -/
def installLines (d : Disk) (r : Bytecode.InstallReport) : List Console.Line :=
  r.compiled.map (fun p => .plain s!"  compiled {p}") ++
    r.copied.map (fun p => .plain s!"  copied {p}") ++
    r.failures.map (fun f => failedLine f.1.text (f.2.message d)) ++
    [.blank,
      if r.isComplete then
        .success s!"Compiled {r.compiled.length} file(s), copied {r.copied.length} file(s)."
      else .failure s!"{r.failures.length} file(s) could not be installed."]

/-! ### Installing -/

/-- The directory in which a gem is kept until it is compiled. -/
def workspace (outputDir : Path) (package : String) : Path :=
  outputDir.child s!".{package}.download"

/-- Downloads a gem into a directory as it is. -/
def installGem (tree : RemoteTree) (source : String) (destination : Path) :
    Act (Except AddError FetchReport) := do
  match ← tree.download source destination with
  | .error cause => return .error (.download source cause)
  | .ok report =>
    (fetchLines (← Act.disk) report).forM Act.print
    return .ok report

/-- Compiles what was downloaded into a workspace. -/
def compileGem (compiler : Bytecode.Compiler) (workspace destination : Path) : Act Unit := do
  Act.print .blank
  Act.print (.plain "Compiling...")
  let report ← Bytecode.install compiler workspace destination
  (installLines (← Act.disk) report).forM Act.print

/-- Downloads a gem into its workspace, compiles it from there, and clears the workspace
away. -/
def installCompiled (compiler : Bytecode.Compiler) (tree : RemoteTree) (source : String)
    (outputDir : Path) (package : String) : Act (Except AddError Unit) := do
  let scratch := workspace outputDir package
  let outcome ← installGem tree source scratch
  if outcome.isOk then compileGem compiler scratch (outputDir.child package)
  let _ ← Directory.clearAway scratch
  return outcome.map fun _ => ()

/-- Downloads a gem into its directory in the output directory, compiled or as it is. -/
def installInto (s : Surroundings) (tree : RemoteTree) (source : String) (outputDir : Path)
    (package : String) (compile : Bool) : Act (Except AddError Unit) := do
  if compile then installCompiled s.compiler tree source outputDir package
  else return (← installGem tree source (outputDir.child package)).map fun _ => ()

/-! ### The command -/

/-- Downloads a gem and shows what comes of it. -/
def add (s : Surroundings) (p : Project) (package : String) (flags : CommandLine.RemoteFlags)
    (output : Option Path) (compile : Bool) : Act (Except AddError Unit) := do
  let settings := p.remoteSettings flags
  let outputDir := p.outputDir output
  let source := join settings.gemsDir package
  Act.print (.header "picogem add")
  Act.print (.field "Repository" settings.repository.text)
  Act.print (.field "Branch" settings.branch)
  Act.print (.field "Package" package)
  Act.print (.field "Source" source)
  Act.print (.field "Output" (outputDir.child package).text)
  Act.print .blank
  let tree := (GitHub.of settings.repository settings.branch s.token).tree s.network
  match ← installInto s tree source outputDir package compile with
  | .ok () => return .ok ()
  | .error e =>
    if e.isNotFound then
      Act.print (.failure s!"Package '{package}' was not found at {source}")
    return .error e

end GemCourier.Commands
