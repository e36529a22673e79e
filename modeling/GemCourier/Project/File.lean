/-
GemCourier/Project/File.lean

The project file `picogem.yaml`, which sets defaults for a project.

Every key is optional.  A file without a document, or with a first document that
is null, sets nothing; any other first document has to be a mapping.  A key that
is known has to have a value of its kind, and the first entry that does not is
the error.  What is unknown is passed over, and so are further documents.
-/
import GemCourier.Host.Basic
import GemCourier.Project.Interval
import GemCourier.Remote.Repository
import GemCourier.Yaml.Document

namespace GemCourier

/-- What a project file sets. -/
structure ProjectFile where
  repository : Option Repository
  branch : Option String
  gemsDir : Option String
  output : Option Path
  storage : Option Path
  pollInterval : Option Interval
deriving DecidableEq, Repr

/-- Why a project file could not be used. -/
inductive ProjectFileError where
  /-- The file could not be read. -/
  | read (shownPath : String) (fault : Fault)
  /-- The file is not text. -/
  | encoding (shownPath : String)
  /-- The text is no YAML. -/
  | parse
  /-- The first document is no mapping. -/
  | topLevelNotMap
  /-- The value of a key is of another kind. -/
  | invalidValue (key : String) (expected : String)
  /-- The value of the key for the repository names none. -/
  | invalidRepository (cause : RepositoryError)
deriving DecidableEq, Repr

namespace ProjectFileError

/-- The error in words. -/
def message : ProjectFileError → String
  | read shownPath _ => s!"Failed to read the config file: {shownPath}"
  | encoding shownPath => s!"The config file {shownPath} is not valid UTF-8"
  | parse => "Failed to parse the config file"
  | topLevelNotMap => "Top level of config should be a map"
  | invalidValue key expected => s!"Config key '{key}' should be {expected}"
  | invalidRepository _ => "Config key 'repository' is invalid"

end ProjectFileError

namespace ProjectFile

/-- The name of the file in the root of a project. -/
def name : String := "picogem.yaml"

/-- The file that sets nothing. -/
def empty : ProjectFile := ⟨none, none, none, none, none, none⟩

/-! ### Entries -/

/-- The value of a key as text. -/
def textValue (key : String) (value : Yaml.Node) : Except ProjectFileError String :=
  match value.text? with
  | some s => .ok s
  | none => .error (.invalidValue key "a string")

/-- The value of a key as a positive number. -/
def positiveValue (key : String) (value : Yaml.Node) : Except ProjectFileError Interval :=
  let interval? := match value with
    | .scalar (.integer n) => Interval.ofMilliseconds? n.toNat
    | _ => none
  match interval? with
  | some i => .ok i
  | none => .error (.invalidValue key "a positive integer")

/-- The value of a key as a repository. -/
def repositoryValue (key : String) (value : Yaml.Node) : Except ProjectFileError Repository :=
  (textValue key value).bind fun s =>
    match Repository.parse s with
    | .ok r => .ok r
    | .error e => .error (.invalidRepository e)

/-- The keys that are known. -/
def knownKeys : List String :=
  ["repository", "branch", "gems_dir", "output", "storage", "poll_interval_ms"]

/-- The file with the value of a key set. -/
def set (f : ProjectFile) (key : String) (value : Yaml.Node) :
    Except ProjectFileError ProjectFile :=
  match key with
  | "repository" => (repositoryValue key value).map fun r => { f with repository := some r }
  | "branch" => (textValue key value).map fun s => { f with branch := some s }
  | "gems_dir" => (textValue key value).map fun s => { f with gemsDir := some s }
  | "output" => (textValue key value).map fun s => { f with output := some ⟨s⟩ }
  | "storage" => (textValue key value).map fun s => { f with storage := some ⟨s⟩ }
  | "poll_interval_ms" => (positiveValue key value).map fun i => { f with pollInterval := some i }
  | _ => .ok f

/-- The file with an entry taken in. -/
def setEntry (f : ProjectFile) (entry : Yaml.Node × Yaml.Node) :
    Except ProjectFileError ProjectFile :=
  match entry.1.text? with
  | some key => f.set key entry.2
  | none => .ok f

/-- The file with some entries taken in, up to the first that is invalid. -/
def setEntries (f : ProjectFile) :
    List (Yaml.Node × Yaml.Node) → Except ProjectFileError ProjectFile
  | [] => .ok f
  | entry :: rest => (f.setEntry entry).bind fun f => f.setEntries rest

/-- What the documents of a file set. -/
def ofDocuments : List Yaml.Node → Except ProjectFileError ProjectFile
  | [] => .ok empty
  | .scalar .null :: _ => .ok empty
  | .mapping entries :: _ => empty.setEntries entries
  | _ => .error .topLevelNotMap

/-- What the text of a file sets. -/
def parse (text : String) : Except ProjectFileError ProjectFile :=
  match Yaml.documents? text with
  | some documents => ofDocuments documents
  | none => .error .parse

/-! ### Reading from disk -/

/-- The note on an entry that is passed over. -/
def passedOver? (entry : Yaml.Node × Yaml.Node) : Option String :=
  match entry.1.text? with
  | some key =>
    if knownKeys.contains key then none else some s!"Ignoring unknown config key '{key}'"
  | none => some s!"Skipping non-string config key: {entry.1.shown}"

/-- The notes on the entries of a document before the first that is invalid. -/
def notesOn : List Yaml.Node → List String
  | .mapping entries :: _ =>
    (entries.takeWhile fun entry => (empty.setEntry entry).isOk).filterMap passedOver?
  | _ => []

/-- Parses the text of a file, with notes on what is passed over. -/
def parseNoting (text : String) : Act (Except ProjectFileError ProjectFile) := do
  ((Yaml.documents? text).elim [] notesOn).forM (Act.note .debug)
  return parse text

/-- Reads a project file. -/
def readFrom (path : Path) : Act (Except ProjectFileError ProjectFile) := do
  let d ← Act.disk
  let shown := d.describe path
  Act.note .debug s!"Reading config file: {shown}"
  match d.readFile path with
  | .error fault => return .error (.read shown fault)
  | .ok bytes =>
    match String.fromUTF8? bytes with
    | none => return .error (.encoding shown)
    | some text => parseNoting text

/-- Reads the project file of a project, if it has one. -/
def readIn (root : Path) : Act (Except ProjectFileError ProjectFile) := do
  let d ← Act.disk
  if d.holds (root.child name) then readFrom (root.child name)
  else
    Act.note .debug s!"No {name} found in {d.describe root}, using defaults"
    return .ok empty

/-! ### In the log -/

/-- A setting that may be missing, as the log shows it. -/
def shownOption (setting : Option String) : String :=
  match setting with
  | some s => s!"Some({s})"
  | none => "None"

/-- What a file sets, as the log shows it. -/
def shown (f : ProjectFile) : String :=
  let repository := f.repository.map fun r =>
    s!"Repository \x7b owner: {Text.quotedText r.owner}, name: {Text.quotedText r.name} \x7d"
  let fields : List (String × Option String) :=
    [("repository", repository), ("branch", f.branch.map Text.quotedText),
     ("gems_dir", f.gemsDir.map Text.quotedText),
     ("output", f.output.map fun p => Text.quotedPath p.text),
     ("storage", f.storage.map fun p => Text.quotedPath p.text),
     ("poll_interval", f.pollInterval.map Interval.shown)]
  let shownFields := fields.map fun field => s!"{field.1}: {shownOption field.2}"
  "ProjectConfig \x7b " ++ ", ".intercalate shownFields ++ " \x7d"

end ProjectFile

end GemCourier
