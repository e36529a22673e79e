/-
GemCourier/Disk/Resolve.lean

Where on a disk a path leads.

A path is read as steps: stay, go up, go down by a name, and a last slash.
Steps are taken one by one from the root or from the start of the disk.  A step
into a symbolic link is replaced by the steps of the link's target, at most
forty times on one way; what lies beyond a step has to be a directory.

`follow` walks up to the next link and `resolve` goes on from there, so on a
disk without links one call of `follow` is the whole way.  What is done at the
end of the way depends on the aim: to see what is there through a last link, to
see the link itself, or to write a file, which a last slash forbids.
-/
import GemCourier.Path.Basic
import GemCourier.Disk.Basic

namespace GemCourier

/-! ### Steps -/

/-- One step on the way along a path. -/
inductive Step where
  /-- A `.`, which stays but needs a directory. -/
  | here
  /-- A `..`. -/
  | up
  /-- A name. -/
  | down (name : String)
  /-- A slash at the end, which needs a directory too. -/
  | slash
deriving DecidableEq, Repr

namespace Step

/-- The step a piece between slashes stands for; empty pieces are none. -/
def ofPiece? (piece : String) : Option Step :=
  if piece = "" then none
  else if piece = "." then some here
  else if piece = ".." then some up
  else some (down piece)

end Step

namespace Path

/-- The steps a path is read as. -/
def steps (p : Path) : List Step :=
  p.pieces.filterMap Step.ofPiece? ++ if p.endsInSlash then [.slash] else []

end Path

/-! ### The way -/

/-- What a path is resolved for. -/
inductive Aim where
  /-- What stands there, seen through a link. -/
  | through
  /-- What stands there, be it a link. -/
  | itself
  /-- A file to write, through a link. -/
  | written
deriving DecidableEq, Repr

/-- Where a way ends. -/
inductive Arrival where
  /-- Something stands at the location. -/
  | found (loc : Location)
  /-- Nothing stands at the location, but its directory exists. -/
  | absent (loc : Location)
deriving DecidableEq, Repr

/-- What comes of walking up to the next symbolic link. -/
inductive Stretch where
  /-- The way ended before a link. -/
  | ended (result : Except Fault Arrival)
  /-- A link holding `target` was met in the directory `folder`, with steps still to go. -/
  | link (folder : Location) (target : Path) (rest : List Step)

/-- The longest name a directory takes, in bytes. -/
def longestName : Nat := 255

/-- The longest path that is resolved, in bytes. -/
def longestPath : Nat := 4095

/-- The most links on one way. -/
def mostLinks : Nat := 40

namespace Disk

/-- Where a way ends at which nothing stands. -/
def arriveAbsent (loc : Location) (rest : List Step) : Except Fault Arrival :=
  if rest = [] ∨ rest = [.slash] then .ok (.absent loc) else .error .notFound

/-- The way from the directory `folder` along some steps, up to the next link. -/
def follow (d : Disk) (aim : Aim) (folder : Location) : List Step → Stretch
  | [] => .ended (.ok (.found folder))
  | .here :: rest => follow d aim folder rest
  | .slash :: rest => follow d aim folder rest
  | .up :: rest => follow d aim folder.dropLast rest
  | .down name :: rest =>
    if aim = .written ∧ rest = [.slash] then .ended (.error .isDirectory)
    else if longestName < name.utf8ByteSize then .ended (.error .nameTooLong)
    else match d.node? (folder ++ [name]) with
      | none => .ended (arriveAbsent (folder ++ [name]) rest)
      | some .folder => follow d aim (folder ++ [name]) rest
      | some (.file ..) =>
        .ended (if rest = [] then .ok (.found (folder ++ [name])) else .error .notDirectory)
      | some (.link target) =>
        if rest = [] ∧ aim = .itself then .ended (.ok (.found (folder ++ [name])))
        else .link folder ⟨target⟩ rest

/-- The way from the directory `folder` along some steps, through at most `links` links. -/
def resolve (d : Disk) (aim : Aim) : Nat → Location → List Step → Except Fault Arrival
  | links, folder, steps =>
    match d.follow aim folder steps, links with
    | .ended result, _ => result
    | .link .., 0 => .error .tooManyLinks
    | .link folder target rest, links + 1 =>
      d.resolve aim links (if target.isAbsolute then [] else folder) (target.steps ++ rest)

/-- Where some steps lead that were read off a path, from the root or from the start. -/
def walk (d : Disk) (aim : Aim) (p : Path) (steps : List Step) : Except Fault Arrival :=
  if p.text.toList.contains '\x00' then .error .holdsNul
  else if p.text = "" then .error .notFound
  else if longestPath < p.text.utf8ByteSize then .error .nameTooLong
  else if p.isAbsolute then d.resolve aim mostLinks [] steps
  else if d.node? d.start = some .folder then d.resolve aim mostLinks d.start steps
  else .error .notFound

/-- Where the path leads. -/
def find (d : Disk) (aim : Aim) (p : Path) : Except Fault Arrival :=
  d.walk aim p p.steps

/-- The location and the node the path leads to. -/
def lookUp (d : Disk) (aim : Aim) (p : Path) : Except Fault (Location × Node) :=
  match d.find aim p with
  | .error fault => .error fault
  | .ok (.absent _) => .error .notFound
  | .ok (.found loc) =>
    match d.node? loc with
    | some node => .ok (loc, node)
    | none => .error .notFound

/-- What stands where the path leads. -/
def node (d : Disk) (p : Path) : Except Fault Node :=
  (d.lookUp .through p).map (·.2)

/-- Whether something stands where the path leads. -/
def holds (d : Disk) (p : Path) : Bool :=
  (d.node p).isOk

/-- Whether the path leads to a directory. -/
def isFolder (d : Disk) (p : Path) : Bool :=
  match d.node p with
  | .ok node => node.isFolder
  | .error _ => false

/-- Whether the path leads to a file. -/
def isFile (d : Disk) (p : Path) : Bool :=
  match d.node p with
  | .ok node => node.isFile
  | .error _ => false

/-! ### Paths as messages show them -/

/-- The absolute path of a location. -/
def pathOf (loc : Location) : Path :=
  Path.ofComponents (.root :: loc.map .name)

/-- The path read from the root: an absolute one as it is, another from the start. -/
def fromRoot (d : Disk) (p : Path) : List Component :=
  if p.isAbsolute then p.components
  else .root :: d.start.map .name ++ p.components

/-- The path as messages show it.  What exists is shown by its location, what does not is
taken from the start of the disk with `.` and `..` folded away. -/
def describe (d : Disk) (p : Path) : String :=
  match d.lookUp .through p with
  | .ok (loc, _) => (pathOf loc).text
  | .error _ =>
    if p.text = "" then ""
    else (Path.ofComponents (Path.foldComponents (d.fromRoot p))).text

end Disk

end GemCourier
