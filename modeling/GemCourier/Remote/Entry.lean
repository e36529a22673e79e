/-
GemCourier/Remote/Entry.lean

Entries of a remote tree and the paths that lead to them.

Remote paths are texts with `/` between their parts.  Slashes around a fragment
do not count: `join` drops them and puts one slash between what is left, and a
fragment of which nothing is left adds nothing.
-/
import GemCourier.Text.Pieces
import GemCourier.Path.Basic

namespace GemCourier.Remote

/-- A remote path without the slashes around it. -/
def trimSlashes (path : String) : String :=
  Text.trim (· == '/') path

/-- A remote path and a fragment below it, with one slash between them. -/
def join (parent name : String) : String :=
  if trimSlashes parent = "" then trimSlashes name
  else if trimSlashes name = "" then trimSlashes parent
  else trimSlashes parent ++ "/" ++ trimSlashes name

/-- What an entry is. -/
inductive Kind where
  | file
  | directory
deriving DecidableEq, Repr

/-- One entry of a directory in a remote tree. -/
structure Entry where
  name : String
  path : String
  kind : Kind
deriving DecidableEq, Repr

namespace Entry

/-- The entry with a name in the directory at a path. -/
def below (parent name : String) (kind : Kind) : Entry :=
  ⟨name, join parent name, kind⟩

/-- Whether the entry is a file. -/
def isFile (e : Entry) : Bool := e.kind == .file

/-- Whether the entry is a directory. -/
def isDirectory (e : Entry) : Bool := e.kind == .directory

end Entry

/-- Whether a listed name stays inside the directory it was listed in: it reads as one
component, and that is a name. -/
def isPlainName (name : String) : Bool :=
  match (Path.mk name).components with
  | [.name _] => true
  | _ => false

end GemCourier.Remote
