/-
GemCourier/Remote/Repository.lean

Repositories, written `OWNER/NAME`.

The text has exactly one slash with something on either side of it.
-/
import GemCourier.Text.Pieces

namespace GemCourier

/-- A repository of an owner. -/
structure Repository where
  owner : String
  name : String
deriving DecidableEq, Repr

/-- Why a text names no repository; both errors carry the text. -/
inductive RepositoryError where
  /-- There is no slash in it. -/
  | missingSlash (text : String)
  /-- There are several slashes, or nothing stands on one side of the only one. -/
  | malformed (text : String)
deriving DecidableEq, Repr

namespace RepositoryError

/-- The error in words. -/
def message : RepositoryError → String
  | missingSlash text => s!"Repository '{text}' must be written as OWNER/REPO"
  | malformed text => s!"Repository '{text}' is not a valid OWNER/REPO pair"

end RepositoryError

namespace Repository

/-- How a repository is written. -/
def text (r : Repository) : String :=
  r.owner ++ "/" ++ r.name

/-- The repository a text names. -/
def parse (text : String) : Except RepositoryError Repository :=
  match Text.split '/' text with
  | [owner, name] =>
    if owner = "" ∨ name = "" then .error (.malformed text) else .ok ⟨owner, name⟩
  | [_] => .error (.missingSlash text)
  | _ => .error (.malformed text)

end Repository

end GemCourier
