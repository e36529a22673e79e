/-
GemCourier/Path/Basic.lean

Paths of the host: texts read as lists of components.

A `Path` keeps the text it was written with, since messages show it that way,
but two paths are the same place in the program's eyes when their components
agree: `components` drops empty pieces and every `.` except one that opens a
relative path, and keeps `..` as it stands.  Joining works on the text (an
absolute right side replaces the left one), taking apart works on components.

`relativeTo?` is the one function that needs both views: what is left of a path
below a base keeps the spelling it had.
-/
import GemCourier.Text.Pieces

namespace GemCourier

/-- A path as it was written. -/
structure Path where
  text : String
deriving DecidableEq, Repr, Inhabited

/-- One step of a path. -/
inductive Component where
  /-- The root of an absolute path. -/
  | root
  /-- A `.` at the front of a relative path. -/
  | here
  /-- A `..`. -/
  | up
  /-- Any other piece. -/
  | name (text : String)
deriving DecidableEq, Repr, Inhabited

namespace Component

/-- How a component is written. -/
def text : Component → String
  | root => "/"
  | here => "."
  | up => ".."
  | name n => n

/-- Whether a component names something, as against pointing somewhere. -/
def isName : Component → Bool
  | name _ => true
  | _ => false

/-- The component a piece stands for after the front of a path, if it counts. -/
def ofPiece? (piece : String) : Option Component :=
  if piece = "" ∨ piece = "." then none
  else if piece = ".." then some up
  else some (name piece)

end Component

namespace Path

instance : ToString Path := ⟨Path.text⟩

/-- The pieces of the text between slashes. -/
def pieces (p : Path) : List String :=
  Text.split '/' p.text

/-- Whether the path starts at the root. -/
def isAbsolute (p : Path) : Bool :=
  p.text.toList.head? == some '/'

/-- Whether the text ends in a slash. -/
def endsInSlash (p : Path) : Bool :=
  p.text.toList.getLast? == some '/'

/-- The component that the front of a path stands for, if it counts. -/
def leading? (absolute : Bool) (piece : String) : Option Component :=
  if absolute then some .root
  else if piece = "." then some .here
  else Component.ofPiece? piece

/-- The components of a path, from the outside in. -/
def components (p : Path) : List Component :=
  match p.pieces with
  | [] => []
  | first :: rest => (leading? p.isAbsolute first).toList ++ rest.filterMap Component.ofPiece?

/-- Whether two paths have the same components. -/
def sameAs (p q : Path) : Bool :=
  p.components == q.components

/-! ### Joining -/

/-- The path `q` taken from `p`; an absolute `q` stands for itself. -/
def join (p q : Path) : Path :=
  if q.isAbsolute then q
  else if p.text = "" ∨ p.endsInSlash then ⟨p.text ++ q.text⟩
  else ⟨p.text ++ "/" ++ q.text⟩

/-- The entry called `name` in the directory `p`. -/
def child (p : Path) (name : String) : Path :=
  p.join ⟨name⟩

/-- The path written from a list of components. -/
def ofComponents (cs : List Component) : Path :=
  cs.foldl (fun p c => p.child c.text) ⟨""⟩

/-! ### Taking apart -/

/-- The directory a path lies in; the root and the empty path have none. -/
def parent? (p : Path) : Option Path :=
  match p.components.reverse with
  | [] => none
  | .root :: _ => none
  | _ :: outer => some (ofComponents outer.reverse)

/-- The name a path ends in, if it ends in a name. -/
def fileName? (p : Path) : Option String :=
  match p.components.getLast? with
  | some (.name n) => some n
  | _ => none

/-- Stem and extension of a name: what stands before and after the last dot.  A name
without a dot, or with none but an opening one, is all stem. -/
def splitName (name : String) : String × Option String :=
  let backwards := name.toList.reverse
  let after := backwards.takeWhile (· ≠ '.')
  match backwards.dropWhile (· ≠ '.') with
  | _ :: c :: before =>
    (String.ofList (c :: before).reverse, some (String.ofList after.reverse))
  | _ => (name, none)

/-- What follows the last dot of the file name. -/
def extension? (p : Path) : Option String :=
  p.fileName?.bind fun n => (splitName n).2

/-- Whether a piece leaves the place unchanged. -/
def isIdle (piece : String) : Bool :=
  piece = "" || piece = "."

/-- A list of pieces without idle ones at its end. -/
def dropIdleEnd (ps : List String) : List String :=
  (ps.reverse.dropWhile isIdle).reverse

/-- A path from pieces, written with a slash between any two. -/
def ofPieces (ps : List String) : Path :=
  ⟨"/".intercalate ps⟩

/-- The path with its extension replaced, if it has one, and with one added otherwise.
The old extension is cut off first and the file name read again, so what is left of a
name such as `..rb` is the `..` that leads upwards, and nothing is added to that. -/
def withExtension (p : Path) (extension : String) : Path :=
  let cut : Path := match p.extension? with
    | none => p
    | some old => ⟨String.ofList (p.text.toList.take (p.text.length - old.length))⟩
  match cut.fileName? with
  | none => cut
  | some n =>
    ofPieces ((dropIdleEnd cut.pieces).dropLast ++ [(splitName n).1 ++ "." ++ extension])

/-- Pieces after the first `n` of them that count. -/
def dropCounting : Nat → List String → List String
  | 0, ps => ps
  | _ + 1, [] => []
  | n + 1, p :: ps => if isIdle p then dropCounting (n + 1) ps else dropCounting n ps

/-- What remains of a path after its first `n` components, in its own spelling. -/
def dropComponents (p : Path) (n : Nat) : Path :=
  match p.pieces with
  | [] => p
  | first :: rest =>
    let fixed := p.isAbsolute || first = "."
    match n with
    | 0 =>
      if fixed then
        match dropIdleEnd rest with
        | [] => ⟨if p.isAbsolute then "/" else "."⟩
        | body => ofPieces (first :: body)
      else ofPieces (dropIdleEnd (first :: rest))
    | n + 1 =>
      let body := if fixed then dropCounting n rest else dropCounting (n + 1) (first :: rest)
      ofPieces (dropIdleEnd (body.dropWhile isIdle))

/-- What remains of `p` below `base`, if `p` starts with the components of `base`. -/
def relativeTo? (p base : Path) : Option Path :=
  if base.components.isPrefixOf p.components then
    some (p.dropComponents base.components.length)
  else none

/-! ### Folding -/

/-- One step of folding: `..` takes back a name before it and cannot leave the root. -/
def foldStep (folded : List Component) (c : Component) : List Component :=
  match c with
  | .here => folded
  | .up => match folded.getLast? with
    | some (.name _) => folded.dropLast
    | some .root => folded
    | _ => folded ++ [.up]
  | c => folded ++ [c]

/-- The components with `.` and `..` folded away as far as the text alone allows. -/
def foldComponents (cs : List Component) : List Component :=
  cs.foldl foldStep []

/-- The path with `.` and `..` folded away as far as the text alone allows. -/
def foldDots (p : Path) : Path :=
  ofComponents (foldComponents p.components)

end Path

end GemCourier
