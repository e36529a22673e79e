/-
GemCourier/Remote/Download.lean

Downloading a directory of a remote tree into a local directory.

Only a failed listing of the directory that was asked for fails the whole.
Below it every entry is accounted for: a file is saved or gives a failure, a
directory gives the accounts of its own entries or one failure, and an entry
whose name would lead out of its directory gives a failure without being asked
for.  A source is downloaded from a directory from which walking down ends, and
a tree from any directory.
-/
import GemCourier.Remote.Tree
import GemCourier.Host.Directory

namespace GemCourier.Remote

/-- Why something was not downloaded. -/
inductive FetchError where
  /-- A directory could not be listed. -/
  | listingFailed (path : String) (cause : RemoteError)
  /-- A listed name would lead out of its directory. -/
  | invalidName (name : String)
  /-- A file could not be downloaded. -/
  | downloadFailed (path : String) (cause : RemoteError)
  /-- The directory of a local file could not be made. -/
  | prepareDirectory (path : Path) (cause : DirectoryError)
  /-- A local file could not be written. -/
  | writeFailed (path : Path) (fault : Fault)
deriving DecidableEq, Repr

namespace FetchError

/-- The error in words, for the disk as it is now. -/
def message (d : Disk) : FetchError → String
  | listingFailed path _ => s!"Failed to list remote directory '{path}'"
  | invalidName name => s!"Refusing to write listed entry '{name}'"
  | downloadFailed path _ => s!"Failed to download '{path}'"
  | prepareDirectory p _ => s!"Failed to prepare the directory for {d.describe p}"
  | writeFailed p _ => s!"Failed to write {d.describe p}"

end FetchError

/-- The accounts of a download, each list in the order of the listings. -/
structure FetchReport where
  saved : List Path
  failures : List (String × FetchError)
deriving DecidableEq, Repr

namespace FetchReport

/-- Whether nothing failed at any depth. -/
def isComplete (r : FetchReport) : Bool := r.failures.isEmpty

/-- The report on nothing. -/
def nothing : FetchReport := ⟨[], []⟩

/-- The report on one saved file. -/
def ofSaved (p : Path) : FetchReport := ⟨[p], []⟩

/-- The report on one failure. -/
def ofFailure (path : String) (e : FetchError) : FetchReport := ⟨[], [(path, e)]⟩

/-- One report after another. -/
def append (r s : FetchReport) : FetchReport :=
  ⟨r.saved ++ s.saved, r.failures ++ s.failures⟩

instance : Append FetchReport := ⟨append⟩

end FetchReport

namespace Source

/-- Writes downloaded bytes to a local file, and says how many they are. -/
def save (localPath : Path) (bytes : ByteArray) : Act (Except FetchError Nat) := do
  match ← Directory.ensureParent localPath with
  | .error e => return .error (.prepareDirectory localPath e)
  | .ok () =>
    match ← Act.change (·.writeFile localPath bytes) with
    | .error fault => return .error (.writeFailed localPath fault)
    | .ok () => return .ok bytes.size

/-- Downloads one file, and says how many bytes it has. -/
def downloadFile (source : Source) (remotePath : String) (localPath : Path) :
    Act (Except FetchError Nat) := do
  Act.note .info s!"Downloading: {remotePath}"
  match ← ask (.fetch remotePath) (source.fetch remotePath) with
  | .error cause => return .error (.downloadFailed remotePath cause)
  | .ok bytes => save localPath bytes

/-- Refuses an entry for its name. -/
def refuse (remotePath name : String) : Act FetchReport := do
  Act.note .warn s!"Skipping {remotePath}: '{name}' is not a plain file name"
  return .ofFailure remotePath (.invalidName name)

/-- Downloads one file, and accounts for it. -/
def accountForFile (source : Source) (remotePath : String) (localPath : Path) :
    Act FetchReport := do
  match ← source.downloadFile remotePath localPath with
  | .ok size =>
    Act.note .info s!"Saved {localPath} ({size} bytes)"
    return .ofSaved localPath
  | .error e =>
    Act.note .warn s!"Skipping {remotePath}: {e.message (← Act.disk)}"
    return .ofFailure remotePath e

/-- Asks for the listing of a directory. -/
def askListing (source : Source) (remotePath : String) : Act Unit := do
  Act.note .info s!"Fetching directory listing: {remotePath}"
  let _ ← ask (.list remotePath) (source.list remotePath)

/-- Accounts for a directory below that could not be listed. -/
def skipSubtree (remotePath : String) (cause : RemoteError) : Act FetchReport := do
  let e := FetchError.listingFailed remotePath cause
  Act.note .warn s!"Skipping subtree {remotePath}: {e.message (← Act.disk)}"
  return .ofFailure remotePath e

/-- Downloads the listed entries of a directory one after the other. -/
def downloadEntries (source : Source) (remotePath : String) (ends : source.Ends remotePath)
    (localRoot : Path) (entries : List Entry)
    (listed : ∀ e ∈ entries, ∃ all, (source.list remotePath).outcome = .ok all ∧ e ∈ all) :
    Act FetchReport :=
  match entries with
  | [] => pure .nothing
  | e :: rest =>
    let remoteChild := join remotePath e.name
    let localChild := localRoot.child e.name
    let account : Act FetchReport :=
      if hname : isPlainName e.name = true then
        match hkind : e.kind with
        | .file => source.accountForFile remoteChild localChild
        | .directory =>
          match hlisted : (source.list remoteChild).outcome with
          | .error cause => source.askListing remoteChild *> skipSubtree remoteChild cause
          | .ok inner =>
            have leads : source.LeadsTo remoteChild remotePath := by
              obtain ⟨all, hall, he⟩ := listed e (by simp)
              exact ⟨all, hall, e, he, hkind, hname, rfl⟩
            source.askListing remoteChild *>
              source.downloadEntries remoteChild (ends.inv leads) localChild inner
                fun _ hf => ⟨inner, hlisted, hf⟩
      else refuse remoteChild e.name
    account >>= fun here =>
      source.downloadEntries remotePath ends localRoot rest (fun f hf => listed f (by simp [hf])) >>=
        fun others => pure (here ++ others)
termination_by ((⟨remotePath, ends⟩ : {path // source.Ends path}), entries.length)
decreasing_by
  · exact Prod.Lex.left _ _ leads
  · exact Prod.Lex.right _ (by simp)

/-- Downloads a directory, from which walking down ends, into a local directory. -/
def download (source : Source) (remotePath : String) (ends : source.Ends remotePath)
    (localRoot : Path) : Act (Except FetchError FetchReport) := do
  source.askListing remotePath
  match hlisted : (source.list remotePath).outcome with
  | .error cause => return .error (.listingFailed remotePath cause)
  | .ok entries =>
    return .ok (← source.downloadEntries remotePath ends localRoot entries
      fun _ he => ⟨entries, hlisted, he⟩)

end Source

/-- Downloads a directory of a remote tree into a local directory. -/
def RemoteTree.download (tree : RemoteTree) (remotePath : String) (localRoot : Path) :
    Act (Except FetchError FetchReport) :=
  tree.toSource.download remotePath (tree.ends remotePath) localRoot

end GemCourier.Remote
