/-
GemCourier/Disk/Basic.lean

A disk as a value: which node stands at which location.

A location is the list of names that lead to it from the root.  The disk keeps
a list of located nodes; `node?` is the view that everything else is said
through, and the two basic changes are `put`, which sets the node of one
location, and `cut`, which takes away a location with all that lies below it.
The root is always a directory.

A disk also knows the location that relative paths start from and the time that
the next write gives a file.

Main results: `node?_put` and `node?_cut`, the view after each change.
-/
import GemCourier.Disk.Fault

namespace GemCourier

/-- Where a node stands: the names on the way from the root. -/
abbrev Location := List String

/-- Bytes are compared as arrays of bytes. -/
instance (priority := high) instDecidableEqBytes : DecidableEq ByteArray :=
  ByteArray.instDecidableEq

/-- What can stand at a location. -/
inductive Node where
  /-- A directory; what it holds are the nodes one name further. -/
  | folder
  /-- A file with its bytes, the time of its last change in nanoseconds, and its mode. -/
  | file (bytes : ByteArray) (modified : Int) (mode : Nat)
  /-- A symbolic link to the path it holds. -/
  | link (target : String)
deriving DecidableEq, Inhabited

namespace Node

/-- Whether the node is a directory. -/
def isFolder : Node → Bool
  | folder => true
  | _ => false

/-- Whether the node is a file. -/
def isFile : Node → Bool
  | file .. => true
  | _ => false

/-- Whether the node is a symbolic link. -/
def isLink : Node → Bool
  | link _ => true
  | _ => false

end Node

/-- Nodes by location, the location relative paths start from, and the time of the next write. -/
structure Disk where
  nodes : List (Location × Node)
  start : Location
  clock : Int
deriving Inhabited

namespace Disk

/-- The node at a location. -/
def node? (d : Disk) (loc : Location) : Option Node :=
  if loc = [] then some .folder
  else (d.nodes.find? fun entry => entry.1 = loc).map (·.2)

/-- The disk with the node of one location set. -/
def put (d : Disk) (loc : Location) (node : Node) : Disk :=
  { d with nodes := (loc, node) :: d.nodes.filter fun entry => entry.1 ≠ loc }

/-- The disk without a location and all that lies below it. -/
def cut (d : Disk) (loc : Location) : Disk :=
  { d with nodes := d.nodes.filter fun entry => !loc.isPrefixOf entry.1 }

/-- The disk with a file written at a location.  The file gets the time of the write, and
the next write a later one. -/
def putFile (d : Disk) (loc : Location) (bytes : ByteArray) (mode : Nat) : Disk :=
  { d.put loc (.file bytes d.clock mode) with clock := d.clock + 1 }

/-- The names of what stands one step below a location, in order. -/
def namesBelow (d : Disk) (loc : Location) : List String :=
  (d.nodes.filterMap fun entry =>
    if entry.1.dropLast = loc then entry.1.getLast? else none).mergeSort fun a b => decide (a ≤ b)

@[simp] theorem node?_nil (d : Disk) : d.node? [] = some .folder := by
  simp [node?]

theorem find?_filter_ne {entries : List (Location × Node)} {loc other : Location}
    (h : other ≠ loc) :
    (entries.filter fun entry => entry.1 ≠ loc).find? (fun entry => entry.1 = other) =
      entries.find? fun entry => entry.1 = other := by
  rw [List.find?_filter]
  congr 1
  funext entry
  by_cases he : entry.1 = other <;> simp [he, h]

/-- Setting a node is seen at its location and nowhere else. -/
theorem node?_put (d : Disk) {loc : Location} (hloc : loc ≠ []) (node : Node) (other : Location) :
    (d.put loc node).node? other = if other = loc then some node else d.node? other := by
  by_cases h : other = loc
  · subst h
    simp [node?, put, hloc]
  · have h' : loc ≠ other := fun e => h e.symm
    simp only [node?, put, List.find?_cons, h', decide_false, find?_filter_ne h, h, if_false]

/-- Taking a location away is seen at it and below it, and nowhere else. -/
theorem node?_cut (d : Disk) {loc : Location} (hloc : loc ≠ []) (other : Location) :
    (d.cut loc).node? other = if loc.isPrefixOf other then none else d.node? other := by
  by_cases ho : other = []
  · subst ho
    cases loc with
    | nil => exact absurd rfl hloc
    | cons name rest => simp [List.isPrefixOf]
  · simp only [node?, cut, ho, if_false, List.find?_filter]
    by_cases h : loc.isPrefixOf other = true
    · simp only [h, if_true, Option.map_eq_none_iff, List.find?_eq_none]
      rintro entry _ hentry
      simp only [Bool.not_eq_true', decide_eq_true_eq] at hentry
      rw [hentry.2, h] at hentry
      exact absurd hentry.1 (by simp)
    · simp only [h]
      congr 2
      funext entry
      by_cases he : entry.1 = other
      · simp [he, h]
      · simp [he]


end Disk

end GemCourier
