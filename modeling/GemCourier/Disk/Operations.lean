/-
GemCourier/Disk/Operations.lean

What the program asks of a disk: reading, listing, writing, making directories,
removing, moving and changing modes.

An operation that fails leaves the disk as it was, so it answers either with a
fault or with the changed disk.  The one exception is the removal of a tree,
which can get stuck after part of its work and so answers with both.
-/
import GemCourier.Disk.Resolve

namespace GemCourier.Disk

/-- The mode of a new file. -/
def newFileMode : Nat := 0o644

/-- The mode that lets everyone run a file. -/
def runnableMode : Nat := 0o755

/-! ### Reading -/

/-- The bytes of a file. -/
def readFile (d : Disk) (p : Path) : Except Fault ByteArray :=
  match d.node p with
  | .error fault => .error fault
  | .ok (.file bytes _ _) => .ok bytes
  | .ok _ => .error .isDirectory

/-- The time of the last change of a file; a directory counts as never changed. -/
def modified (d : Disk) (p : Path) : Except Fault Int :=
  (d.node p).map fun
    | .file _ modified _ => modified
    | _ => 0

/-- The names in a directory, in order. -/
def names (d : Disk) (p : Path) : Except Fault (List String) :=
  match d.lookUp .through p with
  | .error fault => .error fault
  | .ok (loc, .folder) => .ok (d.namesBelow loc)
  | .ok _ => .error .notDirectory

/-! ### Writing -/

/-- The disk with a file written, whether it is there already or not.  A file that is
there keeps its mode. -/
def writeFile (d : Disk) (p : Path) (bytes : ByteArray) : Except Fault Disk :=
  match d.find .written p with
  | .error fault => .error fault
  | .ok (.absent loc) => .ok (d.putFile loc bytes newFileMode)
  | .ok (.found loc) =>
    match d.node? loc with
    | some (.file _ _ mode) => .ok (d.putFile loc bytes mode)
    | _ => .error .isDirectory

/-- The disk with a new directory. -/
def makeFolder (d : Disk) (p : Path) : Except Fault Disk :=
  match d.find .itself p with
  | .error fault => .error fault
  | .ok (.found _) => .error .alreadyExists
  | .ok (.absent loc) => .ok (d.put loc .folder)

/-- The disk with a new symbolic link. -/
def makeLink (d : Disk) (p : Path) (target : String) : Except Fault Disk :=
  if target = "" then .error .notFound
  else match d.find .itself p with
    | .error fault => .error fault
    | .ok (.found _) => .error .alreadyExists
    | .ok (.absent loc) => .ok (d.put loc (.link target))

/-- The disk with the directories along some components, read from `part` on. -/
def makeFoldersFrom (d : Disk) (part : Path) : List Component → Except Fault Disk
  | [] => .ok d
  | c :: rest =>
    let next := part.child c.text
    if d.isFolder next then d.makeFoldersFrom next rest
    else match d.makeFolder next with
      | .error fault => .error fault
      | .ok made => made.makeFoldersFrom next rest

/-- The disk with a directory and its missing ancestors. -/
def makeFolders (d : Disk) (p : Path) : Except Fault Disk :=
  d.makeFoldersFrom ⟨""⟩ p.components

/-- The disk with the mode of a file changed. -/
def setMode (d : Disk) (p : Path) (mode : Nat) : Except Fault Disk :=
  match d.lookUp .through p with
  | .error fault => .error fault
  | .ok (loc, .file bytes modified _) => .ok (d.put loc (.file bytes modified mode))
  | .ok _ => .ok d

/-- The disk with the time of a file's last change set. -/
def setModified (d : Disk) (p : Path) (modified : Int) : Except Fault Disk :=
  match d.lookUp .through p with
  | .error fault => .error fault
  | .ok (loc, .file bytes _ mode) => .ok (d.put loc (.file bytes modified mode))
  | .ok _ => .ok d

/-! ### Removing and moving -/

/-- The step a path ends with, before a last slash. -/
def lastStep? (p : Path) : Option Step :=
  (p.steps.filter (· ≠ .slash)).getLast?

/-- The directory that holds the end of a path. -/
def folderOf (d : Disk) (p : Path) : Except Fault Location :=
  match d.walk .through p ((p.steps.filter (· ≠ .slash)).dropLast ++ [.slash]) with
  | .error fault => .error fault
  | .ok (.absent _) => .error .notFound
  | .ok (.found loc) => .ok loc

/-- Whether a path names a link, whatever slash follows the name. -/
def namesLink (d : Disk) (p : Path) : Bool :=
  match d.folderOf p, lastStep? p with
  | .ok folder, some (.down name) => (d.node? (folder ++ [name])).any Node.isLink
  | _, _ => false

/-- Why the directory at the end of a path stays although it is empty. -/
def removalFault? (d : Disk) (p : Path) : Option Fault :=
  match lastStep? p with
  | none => some .busy
  | some .here => some .invalid
  | some .up => some .notEmpty
  | _ => if d.namesLink p then some .notDirectory else none

/-- The disk without what lies below a location. -/
def emptied (d : Disk) (loc : Location) : Disk :=
  { d with nodes := d.nodes.filter fun entry => entry.1 = loc || !loc.isPrefixOf entry.1 }

/-- Removes a directory with all it holds, or a link alone.  What the directory held is gone
even if it cannot be removed itself. -/
def removeTree (d : Disk) (p : Path) : Option Fault × Disk :=
  match d.lookUp .itself p with
  | .error fault => (some fault, d)
  | .ok (loc, .link _) => (none, d.cut loc)
  | .ok (_, .file ..) => (some .notDirectory, d)
  | .ok (loc, .folder) =>
    match d.removalFault? p with
    | some fault => (some fault, d.emptied loc)
    | none => (none, d.cut loc)

/-- The disk with a file or a link removed. -/
def removeFile (d : Disk) (p : Path) : Except Fault Disk :=
  match d.lookUp .itself p with
  | .error fault => .error fault
  | .ok (_, .folder) => .error .isDirectory
  | .ok (loc, _) => .ok (d.cut loc)

/-- The disk with all that stands at and below `source` standing at and below `target`. -/
def transplant (d : Disk) (source target : Location) : Disk :=
  { d with nodes := (d.cut target).nodes.map fun entry =>
      if source.isPrefixOf entry.1 then (target ++ entry.1.drop source.length, entry.2)
      else entry }

/-- Why a node cannot take the place of an older one. -/
def replacementFault? (d : Disk) (node old : Node) (target : Location) : Option Fault :=
  if node.isFolder then
    if !old.isFolder then some .notDirectory
    else if d.namesBelow target = [] then none else some .notEmpty
  else if old.isFolder then some .isDirectory
  else none

/-- The disk with the node at `source` moved to `target`, where `slash` says whether a slash
ended one of the two paths. -/
def moveEntry (d : Disk) (source target : Location) (slash : Bool) : Except Fault Disk :=
  match d.node? source with
  | none => .error .notFound
  | some node =>
    if !node.isFolder && slash then .error .notDirectory
    else if source = target then .ok d
    else if source.isPrefixOf target then .error .invalid
    else if target.isPrefixOf source then .error .notEmpty
    else match d.node? target with
      | none => .ok (d.transplant source target)
      | some old =>
        match d.replacementFault? node old target with
        | some fault => .error fault
        | none => .ok (d.transplant source target)

/-- The disk with what `p` names moved to where `q` names, in the place of what is there. -/
def move (d : Disk) (p q : Path) : Except Fault Disk :=
  match d.folderOf p with
  | .error fault => .error fault
  | .ok folder =>
    match d.folderOf q with
    | .error fault => .error fault
    | .ok folder' =>
      match lastStep? p, lastStep? q with
      | some (.down name), some (.down name') =>
        if longestName < name.utf8ByteSize || longestName < name'.utf8ByteSize then
          .error .nameTooLong
        else
          d.moveEntry (folder ++ [name]) (folder' ++ [name']) (p.endsInSlash || q.endsInSlash)
      | _, _ => .error .busy

/-! ### Looking around -/

/-- What is left of a location below another one. -/
def below? (loc other : Location) : Option Location :=
  if loc.isPrefixOf other ∧ loc ≠ other then some (other.drop loc.length) else none

/-- All nodes below a directory with the way that leads to them, each directory before what it
holds and siblings in order of their names.  Links are not followed, and what cannot be
listed has no nodes. -/
def contents (d : Disk) (p : Path) : List (Location × Node) :=
  match d.lookUp .through p with
  | .ok (loc, .folder) =>
    (d.nodes.filterMap fun entry => (below? loc entry.1).map fun way => (way, entry.2)).mergeSort
      fun a b => !List.lex b.1 a.1 fun m n => decide (m < n)
  | _ => []

end GemCourier.Disk
