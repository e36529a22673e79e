/-
GemCourier/Proofs/Remote/Depth.lean

How deep the calls of a download are nested.

A download calls itself once for each directory that it enters, and a directory may well list
itself.  `downloadBy` is one call, with the calls that it makes left open: they are made for
the directories that this one leads to and for no others (`downloadBy_congr`).
`downloadWithin` is the recursion with a number of calls that may be made one inside the
other.  It gives no answer exactly where names lead that far down (`answer_downloadWithin`),
and elsewhere it is the download (`downloadWithin_eq_download`).

Each name makes the path longer by at least two characters, a slash and one of its own; only
the first one needs no slash, if nothing is left of the path that it is joined to.  The last
call is on a path that need not be listed.  So calls are nested about half as deep as the
longest listed path is long (`nests_le_reach`), and deeper than it is long only where it is
so short that the missing slash and the last call count.

Main results: `downloadBy_congr`, `answer_downloadWithin`, `downloadWithin_eq_download`,
`nests_le_reach`, `download_nests`.
-/
import GemCourier.Proofs.Remote.Levels

namespace GemCourier.Remote

/-! ### Lengths of paths -/

variable {folder inner name : String} {names : List String}

theorem extent_le_length (path : String) : extent path ≤ path.length := by
  obtain ⟨-, before, after, -, -, hpath⟩ := sheds_iff.2 (Eq.refl (trimSlashes path))
  have hlength : path.length = before.length + extent path + after.length := by
    conv => lhs; rw [hpath]
    rw [String.length_append, String.length_append, extent]
  omega

theorem extent_pos_iff : 0 < extent folder ↔ trimSlashes folder ≠ "" := by
  rw [extent, Nat.pos_iff_ne_zero, ne_eq, String.length_eq_zero_iff]

theorem extent_join_pos (folder : String) (h : isPlainName name = true) :
    0 < extent (join folder name) :=
  Nat.lt_of_le_of_lt (Nat.zero_le _) (extent_lt_extent_join folder h)

/-- Below a path of which something is left, a plain name adds a slash and itself. -/
theorem extent_add_two_le (hfolder : 0 < extent folder) (h : isPlainName name = true) :
    extent folder + 2 ≤ extent (join folder name) := by
  have hname := trimSlashes_ne_empty_of_isPlainName h
  have hpos : 0 < extent name := extent_pos_iff.2 hname
  have hlength : extent (join folder name) = extent folder + 1 + extent name := by
    rw [extent, trimSlashes_join, join_of_both (extent_pos_iff.1 hfolder) hname,
      String.length_append, String.length_append]
    rfl
  omega

namespace Source

variable {source : Source} {place : Path} {entries : List Entry} {calls depth : Nat}

/-! ### Ways down -/

theorem LeadsTo.extent_lt {outer : String} (h : source.LeadsTo inner outer) :
    extent outer < extent inner := by
  obtain ⟨entries, hlisted, e, he, hkind, hname, rfl⟩ := h
  exact extent_lt_extent_join outer hname

/-- A way down ends with one step from a directory. -/
theorem Walk.exists_outer (h : source.Walk folder (names ++ [name]) inner) :
    ∃ outer, source.Walk folder names outer ∧ source.LeadsTo inner outer := by
  induction names generalizing folder with
  | nil =>
    cases h with
    | down hlisted he hkind hname hrest =>
      cases hrest
      exact ⟨folder, .here folder, _, hlisted, _, he, hkind, hname, rfl⟩
  | cons first rest ih =>
    cases h with
    | down hlisted he hkind hname hrest =>
      obtain ⟨outer, hwalk, hleads⟩ := ih hrest
      exact ⟨outer, .down hlisted he hkind hname hwalk, hleads⟩

theorem Walk.extent_add_le (h : source.Walk folder names inner) (hfolder : 0 < extent folder) :
    extent folder + 2 * names.length ≤ extent inner := by
  induction h with
  | here folder => rw [List.length_nil, Nat.mul_zero, Nat.add_zero]
  | @down folder _ e rest inner _ _ _ hname _ ih =>
    have hstep := extent_add_two_le hfolder hname
    have hbelow := ih (extent_join_pos folder hname)
    rw [List.length_cons]
    omega

/-- Nothing need be left of the path that a way starts from. -/
theorem Walk.length_le (h : source.Walk folder names inner) :
    2 * names.length ≤ extent inner + 1 := by
  cases h with
  | here folder => exact Nat.zero_le _
  | @down folder _ e rest inner _ _ _ hname hrest =>
    have hpos := extent_join_pos folder hname
    have hbelow := hrest.extent_add_le hpos
    rw [List.length_cons]
    omega

/-- Names lead so many directories down. -/
def Nests (source : Source) (folder : String) (depth : Nat) : Prop :=
  ∃ names inner, source.Walk folder names inner ∧ names.length = depth

theorem nests_zero (source : Source) (folder : String) : source.Nests folder 0 :=
  ⟨[], folder, .here folder, rfl⟩

theorem nests_succ : source.Nests folder (depth + 1) ↔
    ∃ entries, (source.list folder).outcome = .ok entries ∧
      ∃ e ∈ entries, e.kind = .directory ∧ isPlainName e.name = true ∧
        source.Nests (join folder e.name) depth := by
  constructor
  · rintro ⟨names, inner, hwalk, hlength⟩
    cases hwalk with
    | here folder => cases hlength
    | down hlisted he hkind hname hrest =>
      exact ⟨_, hlisted, _, he, hkind, hname, _, inner, hrest, Nat.succ.inj hlength⟩
  · rintro ⟨entries, hlisted, e, he, hkind, hname, names, inner, hwalk, rfl⟩
    exact ⟨e.name :: names, inner, .down hlisted he hkind hname hwalk, rfl⟩

end Source

/-- What a tree lists bounds how far down names lead. -/
theorem RemoteTree.nests_le_reach (tree : RemoteTree) {depth : Nat}
    (h : tree.toSource.Nests folder depth) :
    2 * depth ≤ tree.reach + 3 ∧ (0 < extent folder → 2 * depth ≤ tree.reach + 1) := by
  obtain ⟨names, inner, hwalk, rfl⟩ := h
  rcases List.eq_nil_or_concat names with rfl | ⟨front, name, rfl⟩
  · exact ⟨Nat.zero_le _, fun _ => Nat.zero_le _⟩
  · rw [List.concat_eq_append] at hwalk ⊢
    -- the directory above the last one is listed
    obtain ⟨outer, hfront, entries, hlisted, -⟩ := hwalk.exists_outer
    have hreach := tree.extent_le_reach hlisted
    have hlength := hfront.length_le
    rw [List.length_append, List.length_singleton]
    refine ⟨by omega, fun hfolder => ?_⟩
    have hbelow := hfront.extent_add_le hfolder
    omega

namespace Source

variable {source : Source} {place : Path} {entries : List Entry} {calls depth : Nat}

/-! ### Calls inside calls -/

/-- Accounts for a directory below whose download failed. -/
def skipFailed (remotePath : String) (e : FetchError) : Act FetchReport := do
  Act.note .warn s!"Skipping subtree {remotePath}: {e.message (← Act.disk)}"
  return .ofFailure remotePath e

/-- A call for a directory and the local place it is downloaded to; it may give no answer. -/
abbrev Call := String → Path → Act (Option (Except FetchError FetchReport))

/-- Accounts for one entry.  A directory is entered by a call, and there is no account if that
one gives no answer. -/
def accountBy (source : Source) (call : Call) (folder : String) (place : Path) (e : Entry) :
    Act (Option FetchReport) :=
  if isPlainName e.name = true then
    match e.kind with
    | .file => some <$> source.accountForFile (join folder e.name) (place.child e.name)
    | .directory => do
      match ← call (join folder e.name) (place.child e.name) with
      | none => return none
      | some (.ok below) => return some below
      | some (.error cause) => some <$> skipFailed (join folder e.name) cause
  else some <$> refuse (join folder e.name) e.name

/-- Accounts for the entries one after the other, up to the first without an account. -/
def entriesBy (source : Source) (call : Call) (folder : String) (place : Path) :
    List Entry → Act (Option FetchReport)
  | [] => return some .nothing
  | e :: rest => do
    match ← source.accountBy call folder place e with
    | none => return none
    | some here =>
      match ← source.entriesBy call folder place rest with
      | none => return none
      | some others => return some (here ++ others)

/-- Downloads a directory, and enters those listed in it by calls. -/
def downloadBy (source : Source) (call : Call) : Call := fun folder place => do
  source.askListing folder
  match (source.list folder).outcome with
  | .error cause => return some (.error (.listingFailed folder cause))
  | .ok entries => return (← source.entriesBy call folder place entries).map .ok

/-- Downloads a directory by at most so many calls one inside the other, this one counted.
There is no answer where one more is needed. -/
def downloadWithin (source : Source) : Nat → Call
  | 0 => fun _ _ => return none
  | calls + 1 => source.downloadBy (source.downloadWithin calls)

section Calls

variable {call : Call}

/-- Calls are made for the directories that an entry leads to, and for no others. -/
theorem accountBy_congr {call' : Call} {e : Entry}
    (hcalls : e.kind = .directory → isPlainName e.name = true →
      call (join folder e.name) = call' (join folder e.name)) :
    source.accountBy call folder place e = source.accountBy call' folder place e := by
  rw [accountBy, accountBy]
  by_cases hname : isPlainName e.name = true
  · rw [if_pos hname, if_pos hname]
    cases hkind : e.kind with
    | file => rfl
    | directory => rw [hcalls hkind hname]
  · rw [if_neg hname, if_neg hname]

theorem entriesBy_congr {call' : Call}
    (hcalls : ∀ e ∈ entries, e.kind = .directory → isPlainName e.name = true →
      call (join folder e.name) = call' (join folder e.name)) :
    source.entriesBy call folder place entries = source.entriesBy call' folder place entries := by
  induction entries with
  | nil => rfl
  | cons e rest ih =>
    rw [entriesBy, entriesBy, accountBy_congr (hcalls e List.mem_cons_self),
      ih fun e' he' => hcalls e' (List.mem_cons_of_mem _ he')]

theorem downloadBy_congr {call' : Call}
    (hcalls : ∀ inner, source.LeadsTo inner folder → call inner = call' inner) :
    source.downloadBy call folder place = source.downloadBy call' folder place := by
  rw [downloadBy, downloadBy]
  cases hlisted : (source.list folder).outcome with
  | error cause => rfl
  | ok entries =>
    have hentries : source.entriesBy call folder place entries =
        source.entriesBy call' folder place entries :=
      entriesBy_congr fun e he hkind hname =>
        hcalls _ ⟨entries, hlisted, e, he, hkind, hname, rfl⟩
    show (_ >>= fun _ => source.entriesBy call folder place entries >>= _) = _
    rw [hentries]

variable {Fails : String → Prop}

theorem answer_accountBy (place : Path) (e : Entry) (h : Host)
    (hcall : ∀ inner place h, (call inner place).answer h = none ↔ Fails inner) :
    (source.accountBy call folder place e).answer h = none ↔
      e.kind = .directory ∧ isPlainName e.name = true ∧ Fails (join folder e.name) := by
  rw [accountBy]
  by_cases hname : isPlainName e.name = true
  · rw [if_pos hname]
    cases hkind : e.kind with
    | file => simp
    | directory =>
      rw [← hcall _ (place.child e.name) h, Act.answer_bind]
      rcases (call (join folder e.name) (place.child e.name)).answer h with - | ⟨- | -⟩ <;>
        simp [hname]
  · simp [hname]

theorem answer_entriesBy (place : Path) (entries : List Entry) (h : Host)
    (hcall : ∀ inner place h, (call inner place).answer h = none ↔ Fails inner) :
    (source.entriesBy call folder place entries).answer h = none ↔
      ∃ e ∈ entries, e.kind = .directory ∧ isPlainName e.name = true ∧
        Fails (join folder e.name) := by
  induction entries generalizing h with
  | nil => simp [entriesBy]
  | cons e rest ih =>
    rw [entriesBy, Act.answer_bind]
    simp only [List.mem_cons, exists_eq_or_imp]
    rw [← answer_accountBy place e h hcall]
    cases haccount : (source.accountBy call folder place e).answer h with
    | none => simp
    | some here =>
      rw [← ih ((source.accountBy call folder place e).after h), Act.answer_bind]
      cases (source.entriesBy call folder place rest).answer
        ((source.accountBy call folder place e).after h) <;> simp

end Calls

/-- A number of calls does not suffice where names lead that many directories down. -/
theorem answer_downloadWithin (h : Host) :
    (source.downloadWithin calls folder place).answer h = none ↔ source.Nests folder calls := by
  induction calls generalizing folder place h with
  | zero =>
    exact iff_of_true rfl (source.nests_zero folder)
  | succ calls ih =>
    rw [downloadWithin, downloadBy, Act.answer_bind, nests_succ]
    cases hlisted : (source.list folder).outcome with
    | error cause => simp
    | ok entries =>
      have hentries : (source.entriesBy (source.downloadWithin calls) folder place entries).answer
          ((source.askListing folder).after h) = none ↔ _ :=
        answer_entriesBy place entries _ fun _ _ h => ih h
      simp [hentries]

/-! ### Calls that suffice -/

theorem entriesBy_cons {call : Call} {e : Entry} {here others : Act FetchReport}
    (hhere : source.accountBy call folder place e = some <$> here)
    (hothers : source.entriesBy call folder place entries = some <$> others) :
    source.entriesBy call folder place (e :: entries) = some <$> followed here others := by
  rw [entriesBy, hhere, hothers]
  rfl

theorem downloadBy_unlisted {cause : RemoteError} (call : Call)
    (hlisted : (source.list folder).outcome = .error cause) :
    source.downloadBy call folder place =
      source.askListing folder *> pure (some (.error (.listingFailed folder cause))) := by
  rw [downloadBy, hlisted]
  rfl

theorem downloadBy_listed {call : Call} {step : Act FetchReport}
    (hlisted : (source.list folder).outcome = .ok entries)
    (hentries : source.entriesBy call folder place entries = some <$> step) :
    source.downloadBy call folder place =
      (fun report => some (.ok report)) <$> (source.askListing folder *> step) := by
  rw [downloadBy, hlisted]
  show (source.askListing folder >>= fun _ =>
    source.entriesBy call folder place entries >>= fun _ => _) = _
  rw [hentries]
  rfl

/-- Where names do not lead on from any of the entries, the calls suffice for all of them. -/
theorem entriesBy_downloadWithin (folder : String) (ends : source.Ends folder) (place : Path)
    (entries : List Entry)
    (listed : ∀ e ∈ entries, ∃ all, (source.list folder).outcome = .ok all ∧ e ∈ all) :
    ∀ calls, (∀ e ∈ entries, e.kind = .directory → isPlainName e.name = true →
        ¬ source.Nests (join folder e.name) calls) →
      source.entriesBy (source.downloadWithin calls) folder place entries =
        some <$> source.downloadEntries folder ends place entries listed := by
  apply downloadEntries_rule (P := fun folder place entries step =>
    ∀ calls, (∀ e ∈ entries, e.kind = .directory → isPlainName e.name = true →
        ¬ source.Nests (join folder e.name) calls) →
      source.entriesBy (source.downloadWithin calls) folder place entries = some <$> step)
  case done =>
    intro folder place calls _
    rfl
  case refused =>
    intro folder place e rest others hname hothers calls hshort
    refine entriesBy_cons ?_ (hothers calls fun e' he' => hshort e' (List.mem_cons_of_mem _ he'))
    rw [accountBy, if_neg (by simp [hname])]
  case file =>
    intro folder place e rest others hname hkind hothers calls hshort
    refine entriesBy_cons ?_ (hothers calls fun e' he' => hshort e' (List.mem_cons_of_mem _ he'))
    rw [accountBy, if_pos hname, hkind]
  case unlisted =>
    intro folder place e rest others cause hname hkind hlisted hothers calls hshort
    refine entriesBy_cons ?_ (hothers calls fun e' he' => hshort e' (List.mem_cons_of_mem _ he'))
    cases calls with
    | zero => exact absurd (source.nests_zero _) (hshort e List.mem_cons_self hkind hname)
    | succ calls =>
      rw [accountBy, if_pos hname, hkind, downloadWithin, downloadBy_unlisted _ hlisted]
      rfl
  case entered =>
    intro folder place e rest others inner below hname hkind hlisted hbelow hothers calls hshort
    refine entriesBy_cons ?_ (hothers calls fun e' he' => hshort e' (List.mem_cons_of_mem _ he'))
    cases calls with
    | zero => exact absurd (source.nests_zero _) (hshort e List.mem_cons_self hkind hname)
    | succ calls =>
      -- names that led on from an entry of the directory would lead on from the directory
      have hinner := hbelow calls fun e' he' hkind' hname' hnests =>
        hshort e List.mem_cons_self hkind hname
          (nests_succ.2 ⟨inner, hlisted, e', he', hkind', hname', hnests⟩)
      rw [accountBy, if_pos hname, hkind, downloadWithin, downloadBy_listed hlisted hinner]
      rfl

/-- A download of a directory that can be listed lists it and accounts for its entries. -/
theorem download_eq_entries (hlisted : (source.list folder).outcome = .ok entries)
    (ends : source.Ends folder) (root : Path) :
    source.download folder ends root =
      .ok <$> (source.askListing folder *> source.downloadEntries folder ends root entries
        fun _ he => ⟨entries, hlisted, he⟩) := by
  unfold download
  split
  · next cause hlisted' =>
    rw [hlisted] at hlisted'
    cases hlisted'
  · next entries' hlisted' =>
    rw [hlisted] at hlisted'
    cases hlisted'
    rfl

/-- Calls that suffice make the download. -/
theorem downloadWithin_eq_download (ends : source.Ends folder) (place : Path)
    (h : ¬ source.Nests folder calls) :
    source.downloadWithin calls folder place = some <$> source.download folder ends place := by
  cases calls with
  | zero => exact absurd (source.nests_zero folder) h
  | succ calls =>
    cases hlisted : (source.list folder).outcome with
    | error cause =>
      funext host
      rw [downloadWithin, downloadBy_unlisted _ hlisted]
      show _ = (some ((source.download folder ends place host).1),
        (source.download folder ends place host).2)
      rw [download_unlisted hlisted]
      rfl
    | ok entries =>
      have hentries := entriesBy_downloadWithin folder ends place entries
        (fun _ he => ⟨entries, hlisted, he⟩) calls fun e he hkind hname hnests =>
          h (nests_succ.2 ⟨entries, hlisted, e, he, hkind, hname, hnests⟩)
      rw [downloadWithin, downloadBy_listed hlisted hentries, download_eq_entries hlisted]
      rfl

end Source

/-! ### Stored trees -/

namespace StoredTree

/-- The length of the longest path with a listing. -/
def longestKey (t : StoredTree) : Nat :=
  (t.listings.map fun listing => listing.1.length).foldl max 0

/-- How deep calls are nested at most below a call for a directory.  One call on a path that has
no listing is made behind the last one that has; it counts where all the paths with a listing
are so short that they leave no room for a slash. -/
def deepest (t : StoredTree) (folder : String) : Nat :=
  if trimSlashes folder = "" ∧ t.longestKey ≤ 1 then t.longestKey + 1 else t.longestKey

theorem reach_le_longestKey (t : StoredTree) : t.reach ≤ t.longestKey := by
  refine List.foldlRecOn (motive := (· ≤ t.longestKey)) _ max (Nat.zero_le _)
    fun n hn m hm => Nat.max_le.2 ⟨hn, ?_⟩
  obtain ⟨listing, hlisting, rfl⟩ := List.mem_map.1 hm
  exact Nat.le_trans (extent_le_length listing.1)
    (le_foldl_max (Or.inr (List.mem_map.2 ⟨listing, hlisting, rfl⟩)))

theorem nests_le_deepest (t : StoredTree) {folder : String} {depth : Nat}
    (h : t.toTree.toSource.Nests folder depth) : depth ≤ t.deepest folder := by
  obtain ⟨hdepth, hbelow⟩ := t.toTree.nests_le_reach h
  have hkey : t.toTree.reach ≤ t.longestKey := t.reach_le_longestKey
  rw [deepest]
  split
  · omega
  · next hlong =>
    by_cases hfolder : trimSlashes folder = ""
    · have : ¬ t.longestKey ≤ 1 := fun hshort => hlong ⟨hfolder, hshort⟩
      omega
    · have := hbelow (extent_pos_iff.2 hfolder)
      omega

/-- **Calls inside calls come to an end.**  Whatever a stored tree lists, a call of a download
makes calls on longer paths only, slashes around them not counted.  Calls are nested exactly as
deep as names lead down, so no deeper than the longest path with a listing is long, or one
deeper where that path has at most one character and the download starts from slashes alone.
With more calls at hand than that, the download is made and answers. -/
theorem download_nests (t : StoredTree) (folder : String) (place : Path) :
    let source := t.toTree.toSource
    (∀ (call call' : Source.Call) outer place,
      (∀ inner, extent outer < extent inner → call inner = call' inner) →
      source.downloadBy call outer place = source.downloadBy call' outer place) ∧
    (∀ calls h, (source.downloadWithin calls folder place).answer h = none ↔
      source.Nests folder calls) ∧
    (∀ depth, source.Nests folder depth → depth ≤ t.deepest folder) ∧
    ∀ calls, t.deepest folder < calls →
      source.downloadWithin calls folder place = some <$> t.toTree.download folder place := by
  refine ⟨fun call call' outer place hcalls => ?_, fun calls h => ?_, fun depth => ?_,
    fun calls hcalls => ?_⟩
  · exact Source.downloadBy_congr fun inner hleads => hcalls inner hleads.extent_lt
  · exact Source.answer_downloadWithin h
  · exact t.nests_le_deepest
  · refine Source.downloadWithin_eq_download (t.toTree.ends folder) place fun hnests => ?_
    have := t.nests_le_deepest hnests
    omega

/-- A tree with a directory that lists itself, what is above it, and itself once more under names
with a slash. -/
def cyclicTree : StoredTree where
  listings := [("t", .held [(.directory, "."), (.directory, ".."), (.directory, ""),
    (.directory, "t/"), (.directory, "/t")]), ("t/t", .held [(.directory, "t")])]
  files := []

theorem download_nests_cyclicTree :
    let source := cyclicTree.toTree.toSource
    source.Nests "t" 2 ∧ 2 ≤ cyclicTree.deepest "t" ∧
      source.downloadWithin 4 "t" ⟨"m"⟩ = some <$> cyclicTree.toTree.download "t" ⟨"m"⟩ ∧
      source.downloadBy (fun _ _ => pure none) "t" ⟨"m"⟩ =
        source.downloadBy (fun inner _ => pure (if extent inner ≤ 1 then some (.ok .nothing)
          else none)) "t" ⟨"m"⟩ := by
  obtain ⟨hcalls, -, hdepth, hdownload⟩ := download_nests cyclicTree "t" ⟨"m"⟩
  have hbelow : cyclicTree.toTree.toSource.Walk "t/t" ["t"] "t/t/t" :=
    .down (e := .below "t/t" "t" .directory) rfl List.mem_cons_self rfl (by decide) (.here _)
  have hnests : cyclicTree.toTree.toSource.Nests "t" 2 :=
    ⟨["t/", "t"], "t/t/t", .down (e := .below "t" "t/" .directory) rfl
      (List.mem_of_getElem? (i := 3) rfl) rfl (by decide) hbelow, rfl⟩
  refine ⟨hnests, hdepth 2 hnests, hdownload 4 (by decide), ?_⟩
  refine hcalls _ _ "t" ⟨"m"⟩ fun inner hlonger => ?_
  have : ¬ extent inner ≤ 1 := by
    rw [show extent "t" = 1 by decide] at hlonger
    omega
  funext place
  rw [if_neg this]

/-- A tree of one directory, the root, with a directory in it that has no listing. -/
def rootTree : StoredTree where
  listings := [("", .held [(.directory, "a")])]
  files := []

/-- The one path with a listing has no characters, and yet a call is made inside the first. -/
theorem nests_beyond_longestKey :
    ¬ (∀ depth, rootTree.toTree.toSource.Nests "" depth → depth ≤ rootTree.longestKey) ∧
      ((rootTree.toTree.download "" ⟨"m"⟩).after default).questions = [.list "", .list "a"] := by
  have hnests : rootTree.toTree.toSource.Nests "" 1 :=
    ⟨["a"], "a", .down (e := .below "" "a" .directory) rfl List.mem_cons_self rfl (by decide)
      (.here _), rfl⟩
  refine ⟨fun hbound => absurd (hbound 1 hnests) (by decide), ?_⟩
  have hshort : ¬ rootTree.toTree.toSource.Nests "" 2 := fun h =>
    absurd (rootTree.nests_le_deepest h) (by decide)
  have hdownload := Source.downloadWithin_eq_download (rootTree.toTree.ends "") ⟨"m"⟩ hshort
  show ((some <$> rootTree.toTree.download "" ⟨"m"⟩ : Act _).after default).questions = _
  rw [RemoteTree.download, ← hdownload]
  decide

end StoredTree

end GemCourier.Remote
