/-
GemCourier/Remote/Tree.lean

Remote trees: what can be listed and read at a distance.

A source answers two questions about a path, what the directory there holds and
what the file there holds, and an answer comes with what happened on the way to
it.  Nothing stops a source from listing directories without end; `Ends` says of
one path that walking down from it stops.  A tree is a source that lists nothing
beyond a certain length of path, its `reach`, so walking down it stops from
every path: a plain name makes the path longer.

A `StoredTree` is a tree written down as its answers.

Main result: `RemoteTree.ends`.
-/
import GemCourier.Host.Basic
import GemCourier.Remote.Join

namespace GemCourier.Remote

/-- Why a remote did not answer a question. -/
inductive RemoteError where
  /-- It answered with a status that is no success. -/
  | status (url : String) (code : Nat)
  /-- It could not be reached. -/
  | transport (url : String) (reason : String)
  /-- Its answer could not be read. -/
  | undecodable (url : String)
deriving DecidableEq, Repr

namespace RemoteError

/-- The error in words. -/
def message : RemoteError → String
  | status url code => s!"HTTP {code} from {url}"
  | transport url reason => s!"Request to {url} failed: {reason}"
  | undecodable url => s!"Failed to read the response from {url}"

/-- The status, if the remote answered with one. -/
def status? : RemoteError → Option Nat
  | status _ code => some code
  | _ => none

end RemoteError

/-- What happens on the way to an answer. -/
inductive Incident where
  /-- A note is made for the log. -/
  | noted (level : Level) (text : String)
  /-- A request is sent. -/
  | requested (request : Request)

/-- The event that the transcript records for an incident. -/
def Incident.event : Incident → Event
  | noted level text => .noted level text
  | requested request => .requested request

/-- An answer, and what happened on the way to it. -/
structure Reply (α : Type) where
  outcome : Except RemoteError α
  incidents : List Incident

namespace Reply

/-- A reply whose answer is read further. -/
def andThen {α β : Type} (reply : Reply α) (read : α → Reply β) : Reply β :=
  match reply.outcome with
  | .error e => ⟨.error e, reply.incidents⟩
  | .ok a => ⟨(read a).outcome, reply.incidents ++ (read a).incidents⟩

end Reply

/-- What answers at a distance what a directory and what a file holds. -/
structure Source where
  list : String → Reply (List Entry)
  fetch : String → Reply ByteArray

namespace Source

/-- Whether walking down goes from a directory to another one: to every entry listed as a
directory under a plain name. -/
def LeadsTo (source : Source) (inner outer : String) : Prop :=
  ∃ entries, (source.list outer).outcome = .ok entries ∧
    ∃ e ∈ entries, e.kind = .directory ∧ isPlainName e.name = true ∧ inner = join outer e.name

/-- Walking down from a directory comes to an end. -/
abbrev Ends (source : Source) (path : String) : Prop :=
  Acc source.LeadsTo path

/-- Directories from which walking down ends, the inner ones before the outer ones. -/
instance descent (source : Source) : WellFoundedRelation {path : String // source.Ends path} where
  rel inner outer := source.LeadsTo inner.1 outer.1
  wf := ⟨fun ⟨path, ends⟩ => by
    induction ends with
    | intro path _ ih => exact ⟨_, fun ⟨inner, _⟩ hinner => ih inner hinner⟩⟩

end Source

/-- A tree of directories and files at a distance. -/
structure RemoteTree extends Source where
  reach : Nat
  /-- Nothing is listed beyond the reach. -/
  list_fails : ∀ path, reach < extent path → ∃ e, (list path).outcome = .error e

namespace RemoteTree

/-- What is listed lies within the reach. -/
theorem extent_le_reach (tree : RemoteTree) {path : String} {entries : List Entry}
    (h : (tree.list path).outcome = .ok entries) : extent path ≤ tree.reach := by
  refine Nat.le_of_not_lt fun hlt => ?_
  obtain ⟨e, he⟩ := tree.list_fails path hlt
  simp [he] at h

/-- Walking down a tree comes to an end from every path. -/
theorem ends (tree : RemoteTree) (path : String) : tree.Ends path := by
  -- on the distance from the reach, which every step down makes smaller
  have aux : ∀ n path, tree.reach + 1 - extent path ≤ n → tree.Ends path := by
    intro n
    induction n with
    | zero =>
      intro path hn
      refine ⟨_, fun inner ⟨entries, hlisted, _⟩ => ?_⟩
      have := tree.extent_le_reach hlisted
      omega
    | succ n ih =>
      intro path hn
      refine ⟨_, fun inner ⟨entries, hlisted, e, _, _, hname, hinner⟩ => ih inner ?_⟩
      have := tree.extent_le_reach hlisted
      have := extent_lt_extent_join path hname
      rw [hinner]
      omega
  exact aux _ path (Nat.le_refl _)

end RemoteTree

/-- Carries out a reply: what happened on the way goes into the transcript. -/
def perform {α : Type} (reply : Reply α) : Act (Except RemoteError α) := do
  reply.incidents.forM fun i => Act.record i.event
  return reply.outcome

/-- Asks a remote a question: the question and what it causes go into the transcript. -/
def ask {α : Type} (question : Question) (reply : Reply α) : Act (Except RemoteError α) := do
  Act.record (.asked question)
  perform reply

/-! ### Stored trees -/

/-- A stored answer. -/
inductive Stored (α : Type) where
  | held (value : α)
  | status (code : Nat)
  | broken (reason : String)
  | undecodable
deriving Repr

/-- A remote tree written down as its answers; a path without one is not found. -/
structure StoredTree where
  listings : List (String × Stored (List (Kind × String)))
  files : List (String × Stored ByteArray)

namespace Stored

/-- The outcome a stored answer stands for. -/
def outcome {α : Type} (url : String) : Option (Stored α) → Except RemoteError α
  | some (held value) => .ok value
  | some (status code) => .error (.status url code)
  | some (broken reason) => .error (.transport url reason)
  | some undecodable => .error (.undecodable url)
  | none => .error (.status url 404)

end Stored

namespace StoredTree

/-- The length of the longest path with a listing. -/
def reach (t : StoredTree) : Nat :=
  (t.listings.map fun e => extent e.1).foldl max 0

/-- What the tree answers when a directory is listed. -/
def list (t : StoredTree) (path : String) : Reply (List Entry) :=
  ⟨(Stored.outcome s!"list:{path}" (t.listings.lookup path)).map fun entries =>
    entries.map fun e => Entry.below path e.2 e.1, []⟩

/-- What the tree answers when a file is fetched. -/
def fetch (t : StoredTree) (path : String) : Reply ByteArray :=
  ⟨Stored.outcome s!"fetch:{path}" (t.files.lookup path), []⟩

theorem le_foldl_max {ns : List Nat} {start n : Nat} (h : n ≤ start ∨ n ∈ ns) :
    n ≤ ns.foldl max start := by
  induction ns generalizing start with
  | nil => simpa using h
  | cons m rest ih =>
    rw [List.foldl_cons]
    refine ih ?_
    rcases h with h | h
    · exact Or.inl (Nat.le_trans h (Nat.le_max_left _ _))
    · rcases List.mem_cons.1 h with rfl | h
      · exact Or.inl (Nat.le_max_right _ _)
      · exact Or.inr h

theorem lookup_eq_none_of_not_mem {α : Type} {entries : List (String × α)} {path : String}
    (h : ∀ e ∈ entries, e.1 ≠ path) : entries.lookup path = none := by
  rw [List.lookup_eq_none_iff]
  intro e he
  simpa using (h e he).symm

theorem list_fails (t : StoredTree) (path : String) (h : t.reach < extent path) :
    ∃ e, (t.list path).outcome = .error e := by
  have hnone : t.listings.lookup path = none := lookup_eq_none_of_not_mem fun e he heq => by
    have : extent e.1 ≤ t.reach :=
      le_foldl_max (Or.inr (List.mem_map.2 ⟨e, he, rfl⟩))
    rw [heq] at this
    omega
  exact ⟨_, by simp [list, hnone, Stored.outcome, Except.map]; rfl⟩

/-- The remote tree that gives the stored answers. -/
def toTree (t : StoredTree) : RemoteTree :=
  ⟨⟨t.list, t.fetch⟩, t.reach, t.list_fails⟩

end StoredTree

end GemCourier.Remote
