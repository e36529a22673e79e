/-
GemCourier/Remote/GitHub.lean

A repository on GitHub at a fixed reference.

Directories are listed by the contents interface and files are read from the
host for raw contents.  Releases are looked up by their latest tag, shown
without a leading `v`, and their assets are downloaded by tag and name.
-/
import GemCourier.Remote.Repository
import GemCourier.Remote.Network
import GemCourier.Remote.Json
import GemCourier.Release.Version

namespace GemCourier.Remote

/-- A repository at a reference, read with a token or without. -/
structure GitHub where
  repository : Repository
  reference : String
  token : Option String
deriving DecidableEq, Repr

namespace GitHub

/-- A token that counts; an empty one is none. -/
def usable (token : Option String) : Option String :=
  token.filter (· ≠ "")

/-- The repository at a reference, with the token of the environment. -/
def of (repository : Repository) (reference : String) (token : Option String) : GitHub :=
  ⟨repository, reference, usable token⟩

/-- The same with another token. -/
def withToken (g : GitHub) (token : Option String) : GitHub :=
  { g with token := usable token }

/-! ### Addresses -/

/-- The host of the interface for listings and releases, up to its repositories. -/
def apiBase : String := "https://api.github.com/repos/"

/-- The host of raw contents. -/
def rawBase : String := "https://raw.githubusercontent.com/"

/-- The host of release assets. -/
def assetBase : String := "https://github.com/"

/-- The address of the listing of a directory. -/
def contentsUrl (g : GitHub) (path : String) : String :=
  (apiBase ++ g.repository.text ++ "/contents/") ++ trimSlashes path ++ ("?ref=" ++ g.reference)

/-- The address of the raw contents of a file. -/
def rawUrl (g : GitHub) (path : String) : String :=
  (rawBase ++ g.repository.text ++ "/" ++ g.reference ++ "/") ++ trimSlashes path

/-- The address of the latest release. -/
def latestReleaseUrl (g : GitHub) : String :=
  apiBase ++ g.repository.text ++ "/releases/latest"

/-- The address of an asset of a release. -/
def assetUrl (g : GitHub) (tag asset : String) : String :=
  assetBase ++ g.repository.text ++ "/releases/download/v" ++ tag ++ "/" ++ asset

/-! ### Requests -/

/-- What is asked for where JSON is expected. -/
def acceptJson : String := "application/vnd.github.v3+json"

/-- What is asked for where bytes are expected. -/
def acceptBytes : String := "application/octet-stream"

/-- A request for an address. -/
def request (g : GitHub) (accept url : String) : Request :=
  ⟨url, accept, g.token.map fun token => s!"Bearer {token}", s!"picogem/{Version.current}"⟩

/-- The JSON value of a body. -/
def bodyJson? (body : ByteArray) : Option Json :=
  (String.fromUTF8? body).bind Json.parse?

/-- A reply read further by a reader of JSON that can fail. -/
def decoded {α : Type} (url : String) (read : Json → Option α) (incidents : Json → List Incident)
    (reply : Reply ByteArray) : Reply α :=
  reply.andThen fun body =>
    match bodyJson? body with
    | none => ⟨.error (.undecodable url), []⟩
    | some json =>
      match read json with
      | none => ⟨.error (.undecodable url), []⟩
      | some a => ⟨.ok a, incidents json⟩

/-! ### Listings -/

/-- A listed item: its name, its path and what it is said to be. -/
structure Item where
  name : String
  path : String
  kind : String

/-- The item a value describes. -/
def item? (json : Json) : Option Item :=
  match json.fields? ["name", "path", "type"] with
  | some [name, path, kind] => some ⟨name, path, kind⟩
  | _ => none

/-- The items of a listing. -/
def items? (json : Json) : Option (List Item) :=
  json.items?.bind fun items => items.mapM item?

/-- The entry of an item, if it is a file or a directory. -/
def Item.entry? (item : Item) : Option Entry :=
  if item.kind = "file" then some ⟨item.name, item.path, .file⟩
  else if item.kind = "dir" then some ⟨item.name, item.path, .directory⟩
  else none

/-- The note on an item that is passed over. -/
def Item.skipped? (item : Item) : Option Incident :=
  if item.entry?.isNone then
    some (.noted .debug s!"Skipping {item.kind} entry '{item.path}'")
  else none

/-- The entries of a directory. -/
def list (g : GitHub) (network : Network) (path : String) : Reply (List Entry) :=
  decoded (g.contentsUrl path) (fun json => (items? json).map (·.filterMap Item.entry?))
    (fun json => ((items? json).getD []).filterMap Item.skipped?)
    (network.send (g.request acceptJson (g.contentsUrl path)))

/-- The bytes of a file. -/
def fetch (g : GitHub) (network : Network) (path : String) : Reply ByteArray :=
  network.send (g.request acceptBytes (g.rawUrl path))

/-- Only what was answered is read. -/
theorem decoded_ok {α : Type} {url : String} {read : Json → Option α}
    {incidents : Json → List Incident} {reply : Reply ByteArray} {a : α}
    (h : (decoded url read incidents reply).outcome = .ok a) :
    ∃ body, reply.outcome = .ok body := by
  rw [decoded, Reply.andThen] at h
  split at h
  · simp at h
  · next body hbody => exact ⟨body, hbody⟩

theorem extent_le_length_contentsUrl (g : GitHub) (path : String) :
    extent path ≤ (g.contentsUrl path).length := by
  rw [contentsUrl, extent, String.length_append, String.length_append]
  exact Nat.le_trans (Nat.le_add_left _ _) (Nat.le_add_right _ _)

theorem list_fails (g : GitHub) (network : Network) (path : String)
    (h : network.reach < extent path) : ∃ e, (g.list network path).outcome = .error e := by
  cases hout : (g.list network path).outcome with
  | error e => exact ⟨e, rfl⟩
  | ok entries =>
    obtain ⟨body, hbody⟩ := decoded_ok hout
    have hlen := Network.length_le_reach_of_send hbody
    have hurl := extent_le_length_contentsUrl g path
    simp only [request] at hlen
    omega

/-- The repository as a remote tree. -/
def tree (g : GitHub) (network : Network) : RemoteTree :=
  ⟨⟨g.list network, g.fetch network⟩, network.reach, g.list_fails network⟩

/-! ### Releases -/

/-- A tag without a leading `v`. -/
def versionOfTag (tag : String) : String :=
  match tag.toList with
  | 'v' :: rest => String.ofList rest
  | _ => tag

/-- The version of the latest release. -/
def latestRelease (g : GitHub) (network : Network) : Reply String :=
  decoded g.latestReleaseUrl
    (fun json => match json.fields? ["tag_name"] with
      | some [tag] => some (versionOfTag tag)
      | _ => none)
    (fun _ => [])
    (network.send (g.request acceptJson g.latestReleaseUrl))

/-- The bytes of an asset of a release. -/
def downloadAsset (g : GitHub) (network : Network) (tag asset : String) : Reply ByteArray :=
  network.send (g.request acceptBytes (g.assetUrl tag asset))

end GitHub

end GemCourier.Remote
