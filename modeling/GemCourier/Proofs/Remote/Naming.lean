/-
GemCourier/Proofs/Remote/Naming.lean

Which names lead to a visited entry.

In a tidy source the names of one listing differ and hold no slash, so a plain
name is the name of an entry, and joining it to a remote path adds one part to
it.  Every visit of a download then lies behind some names, by which its remote
path goes on from the directory that was asked for and its local path from the
local one.  Names tell visits apart: no file lies at or above what is visited
otherwise, and no question is asked twice.

Main results: `parts_descend`, `Round.forall_visits`, `Round.behind`, `Round.pairwise_apart`.
-/
import GemCourier.Proofs.Remote.Accounts
import GemCourier.Proofs.Remote.Spelling

namespace GemCourier.Remote

/-! ### Parts of remote paths -/

/-- The parts of a remote path between its slashes, those around it not counted. -/
def parts (path : String) : List String :=
  if trimSlashes path = "" then [] else Text.split '/' (trimSlashes path)

/-- A remote path and what lies behind some names from there. -/
def descend (folder : String) (names : List String) : String :=
  names.foldl join folder

theorem descend_cons (folder name : String) (names : List String) :
    descend folder (name :: names) = descend (join folder name) names := by
  rw [descend, descend, List.foldl_cons]

theorem descend_concat (folder name : String) (names : List String) :
    descend folder (names ++ [name]) = join (descend folder names) name := by
  rw [descend, descend, List.foldl_concat]

theorem trimSlashes_of_not_mem {name : String} (h : '/' ∉ name.toList) :
    trimSlashes name = name := by
  have hkeep : ∀ c ∈ name.toList, (c == '/') = false := by
    intro c hc
    refine beq_eq_false_iff_ne.2 ?_
    rintro rfl
    exact h hc
  rw [trimSlashes, Text.trim, Text.trimmed_eq_self, String.ofList_toList]
  · exact fun c hc => hkeep c (List.mem_of_mem_head? hc)
  · exact fun c hc => hkeep c (List.mem_of_mem_getLast? hc)

/-- The parts of a joined path are those of the two. -/
theorem parts_join_parts (folder name : String) :
    parts (join folder name) = parts folder ++ parts name := by
  rw [parts, trimSlashes_join, join]
  by_cases hfolder : trimSlashes folder = ""
  · simp [parts, hfolder]
  · by_cases hname : trimSlashes name = ""
    · simp [parts, hfolder, hname]
    · have hsplit : Text.split '/' (trimSlashes folder ++ "/" ++ trimSlashes name) =
          Text.split '/' (trimSlashes folder) ++ Text.split '/' (trimSlashes name) := by
        rw [Text.split, Text.split, Text.split, ← List.map_append]
        simp [Text.pieces_append_sep]
      simp [parts, hfolder, hname, hsplit]

theorem join_empty (folder : String) : parts (join folder "") = parts folder := by
  rw [parts_join_parts, show parts "" = [] by decide, List.append_nil]

/-- A name without slashes is one more part. -/
theorem parts_join (folder : String) {name : String} (hne : name ≠ "") (h : '/' ∉ name.toList) :
    parts (join folder name) = parts folder ++ [name] := by
  have hone : parts name = [name] := by
    rw [parts, trimSlashes_of_not_mem h, if_neg hne]
    simp [Text.split, Text.pieces_of_not_mem h]
  rw [parts_join_parts, hone]

theorem parts_descend (folder : String) {names : List String} (h : ∀ n ∈ names, IsEntryName n) :
    parts (descend folder names) = parts folder ++ names := by
  induction names generalizing folder with
  | nil => simp [descend]
  | cons n rest ih =>
    have hn := h n (by simp)
    rw [descend_cons, ih (join folder n) fun m hm => h m (by simp [hm]),
      parts_join folder hn.ne_empty hn.no_slash]
    simp

/-- A plain name without slashes is the name of an entry. -/
theorem isEntryName_of_isPlainName {name : String} (hplain : isPlainName name = true)
    (h : '/' ∉ name.toList) : IsEntryName name := by
  obtain ⟨core, hcore⟩ := isPlainName_iff.1 hplain
  rw [hcore.no_slash_iff.1 h]
  exact hcore.isEntryName

/-! ### Tidy sources -/

/-- The names of the entries differ and hold no slash. -/
structure Orderly (entries : List Entry) : Prop where
  distinct : (entries.map Entry.name).Nodup
  no_slash : ∀ e ∈ entries, '/' ∉ e.name.toList

namespace Orderly

variable {e : Entry} {rest : List Entry}

theorem others (h : Orderly (e :: rest)) : Orderly rest where
  distinct := (List.nodup_cons.1 h.distinct).2
  no_slash := fun e he => h.no_slash e (by simp [he])

theorem head (h : Orderly (e :: rest)) : '/' ∉ e.name.toList :=
  h.no_slash e (by simp)

theorem fresh (h : Orderly (e :: rest)) : ∀ e' ∈ rest, e.name ≠ e'.name :=
  fun _ he' heq => (List.nodup_cons.1 h.distinct).1 (heq ▸ List.mem_map_of_mem he')

end Orderly

/-- Every listing is orderly. -/
def Source.Tidy (source : Source) : Prop :=
  ∀ path entries, (source.list path).outcome = .ok entries → Orderly entries

/-- A stored tree is tidy if its listings are. -/
theorem StoredTree.tidy {t : StoredTree}
    (h : ∀ listing ∈ t.listings, ∀ held, listing.2 = .held held →
      (held.map Prod.snd).Nodup ∧ ∀ name ∈ held.map Prod.snd, '/' ∉ name.toList) :
    t.toTree.toSource.Tidy := by
  intro path entries hlisted
  replace hlisted : (Stored.outcome s!"list:{path}" (t.listings.lookup path)).map
      (fun held => held.map fun e => Entry.below path e.2 e.1) = .ok entries := hlisted
  cases hlookup : t.listings.lookup path with
  | none =>
    rw [hlookup] at hlisted
    cases hlisted
  | some stored =>
    rw [hlookup] at hlisted
    cases stored with
    | held held =>
      obtain rfl : held.map (fun e => Entry.below path e.2 e.1) = entries := Except.ok.inj hlisted
      obtain ⟨front, back, hsplit, -⟩ := List.lookup_eq_some_iff.1 hlookup
      obtain ⟨hdistinct, hslash⟩ := h (path, .held held) (by simp [hsplit]) held rfl
      refine ⟨by rwa [List.map_map], fun e he => ?_⟩
      obtain ⟨listed, hmem, rfl⟩ := List.mem_map.1 he
      exact hslash _ (List.mem_map_of_mem hmem)
    | status code => cases hlisted
    | broken reason => cases hlisted
    | undecodable => cases hlisted

/-! ### Visits and names -/

namespace Visit

variable {folder : String} {place : Path} {v w : Visit} {front : List String}
  {entries : List Entry}

/-- The entry is asked for: its name is plain. -/
def Plain (v : Visit) : Prop := isPlainName v.entry.name = true

/-- The entry is a file that is asked for. -/
def IsFile (v : Visit) : Prop := v.Plain ∧ v.entry.kind = .file

/-- The names lead from a remote directory and its local place to those that the entry was
listed in. -/
structure Lies (v : Visit) (folder : String) (place : Path) (front : List String) : Prop where
  folder : v.folder = descend folder front
  place : v.place = place.descend front
  names : ∀ n ∈ front, IsEntryName n

theorem Lies.remotePath (h : v.Lies folder place front) :
    v.remotePath = descend folder (front ++ [v.entry.name]) := by
  rw [Visit.remotePath, h.folder, descend_concat]

theorem Lies.localPath (h : v.Lies folder place front) :
    v.localPath = place.descend (front ++ [v.entry.name]) := by
  rw [Visit.localPath, h.place, Path.descend, Path.descend, List.foldl_concat]

/-- A visit below a directory, taken from the directory that this one was listed in. -/
theorem Lies.cons {name : String} (hname : IsEntryName name)
    (h : v.Lies (join folder name) (place.child name) front) :
    v.Lies folder place (name :: front) where
  folder := by rw [h.folder, descend_cons]
  place := by rw [h.place, Path.descend_cons]
  names := by
    intro n hn
    rcases List.mem_cons.1 hn with rfl | hn
    · exact hname
    · exact h.names n hn

theorem Lies.isEntryName (h : v.Lies folder place front) (hname : IsEntryName v.entry.name) :
    ∀ n ∈ front ++ [v.entry.name], IsEntryName n := by
  intro n hn
  rcases List.mem_append.1 hn with hn | hn
  · exact h.names n hn
  · rwa [List.mem_singleton.1 hn]

/-- The visit lies behind one of the entries that a directory lists. -/
def Behind (v : Visit) (folder : String) (place : Path) (entries : List Entry) : Prop :=
  '/' ∉ v.entry.name.toList ∧ ∃ front, v.Lies folder place front ∧
    ∃ e ∈ entries, (front ++ [v.entry.name]).head? = some e.name

theorem Behind.later {e : Entry} (h : v.Behind folder place entries) :
    v.Behind folder place (e :: entries) := by
  obtain ⟨hslash, front, hlies, e', he', hhead⟩ := h
  exact ⟨hslash, front, hlies, e', by simp [he'], hhead⟩

/-- What lies behind an entry of a directory lies behind that directory. -/
theorem Behind.outer {e : Entry} {rest inner : List Entry} (hname : IsEntryName e.name)
    (h : v.Behind (join folder e.name) (place.child e.name) inner) :
    v.Behind folder place (e :: rest) := by
  obtain ⟨hslash, front, hlies, -⟩ := h
  exact ⟨hslash, e.name :: front, hlies.cons hname, e, by simp, rfl⟩

/-- What is asked for behind some entries has remotely and locally the same names behind it, of
which the first is that of one of the entries. -/
theorem Behind.exists_names (h : v.Behind folder place entries) (hplain : v.Plain) :
    ∃ e ∈ entries, ∃ more : List String, parts v.remotePath = parts folder ++ e.name :: more ∧
      v.localPath.components = place.components ++ (e.name :: more).map .name := by
  obtain ⟨hslash, front, hlies, e, he, hhead⟩ := h
  have hentries := hlies.isEntryName (isEntryName_of_isPlainName hplain hslash)
  obtain ⟨more, hmore⟩ := List.head?_eq_some_iff.1 hhead
  refine ⟨e, he, more, ?_, ?_⟩
  · rw [hlies.remotePath, parts_descend folder hentries, hmore]
  · rw [hlies.localPath, Path.components_descend hentries, hmore]

/-- Of two visits that are asked for the later one does not lie at or above the earlier one, nor
the earlier one, if it is a file, at or above the later one. -/
def Apart (v w : Visit) : Prop :=
  v.Plain → w.Plain → ¬ w.localPath.components <+: v.localPath.components ∧
    (v.entry.kind = .file → ¬ v.localPath.components <+: w.localPath.components)

theorem apart_of_not_plain (h : ¬ v.Plain) : v.Apart w :=
  fun hplain => absurd hplain h

/-- Visits behind different names lie beside each other. -/
theorem apart_of_ne {n m : String} {more others : List String} (hne : n ≠ m)
    (hv : v.localPath.components = place.components ++ (n :: more).map .name)
    (hw : w.localPath.components = place.components ++ (m :: others).map .name) : v.Apart w := by
  intro _ _
  rw [hv, hw, List.prefix_append_right_inj, List.prefix_append_right_inj, List.map_cons,
    List.map_cons, List.cons_prefix_cons, List.cons_prefix_cons]
  exact ⟨fun h => hne (by simpa using h.1.symm), fun _ h => hne (by simpa using h.1)⟩

end Visit

namespace Source

/-! ### Rounds -/

/-- `source.Round folder place entries visits`: the visits account for the entries as in a tour,
whatever became of the files. -/
inductive Round (source : Source) : String → Path → List Entry → List Visit → Prop
  | done {folder place} : Round source folder place [] []
  | refused {folder place e rest visits} : isPlainName e.name = false →
      Round source folder place rest visits →
      Round source folder place (e :: rest) (⟨folder, place, e, .refused⟩ :: visits)
  | file {folder place e fate rest visits} : isPlainName e.name = true → e.kind = .file →
      (fate = .saved ∨ ∃ cause, fate = .lost cause) → Round source folder place rest visits →
      Round source folder place (e :: rest) (⟨folder, place, e, fate⟩ :: visits)
  | unlisted {folder place e cause rest visits} : isPlainName e.name = true →
      e.kind = .directory → (source.list (join folder e.name)).outcome = .error cause →
      Round source folder place rest visits →
      Round source folder place (e :: rest) (⟨folder, place, e, .unlisted cause⟩ :: visits)
  | entered {folder place e inner below rest visits} : isPlainName e.name = true →
      e.kind = .directory → (source.list (join folder e.name)).outcome = .ok inner →
      Round source (join folder e.name) (place.child e.name) inner below →
      Round source folder place rest visits →
      Round source folder place (e :: rest) (⟨folder, place, e, .entered⟩ :: (below ++ visits))

variable {source : Source} {folder : String} {place : Path} {entries : List Entry}
  {visits : List Visit}

theorem Settles.saved_or_lost {remotePath : String} {localPath : Path} {d d' : Disk} {fate : Fate}
    (h : source.Settles remotePath localPath d fate d') :
    fate = .saved ∨ ∃ cause, fate = .lost cause := by
  cases h with
  | saved => exact Or.inl rfl
  | unfetched => exact Or.inr ⟨_, rfl⟩
  | unprepared => exact Or.inr ⟨_, rfl⟩
  | unwritten => exact Or.inr ⟨_, rfl⟩

theorem Tour.round {d d' : Disk} (h : source.Tour folder place d entries visits d') :
    source.Round folder place entries visits := by
  induction h with
  | done => exact .done
  | refused hname _ ih => exact .refused hname ih
  | file hname hkind hsettles _ ih => exact .file hname hkind hsettles.saved_or_lost ih
  | unlisted hname hkind hlisted _ ih => exact .unlisted hname hkind hlisted ih
  | entered hname hkind hlisted _ _ ihbelow ih =>
    exact .entered hname hkind hlisted ihbelow ih

/-- What holds of the visit to an entry of a listing, and goes on holding with one entry more in
front and from a directory to the one that lists it, holds of every visit of a round. -/
theorem Round.forall_visits {P : String → Path → List Entry → Visit → Prop}
    (here : ∀ folder place e rest fate, P folder place (e :: rest) ⟨folder, place, e, fate⟩)
    (later : ∀ folder place e rest v, P folder place rest v → P folder place (e :: rest) v)
    (outer : ∀ folder place e inner rest v, isPlainName e.name = true → e.kind = .directory →
      (source.list (join folder e.name)).outcome = .ok inner →
      P (join folder e.name) (place.child e.name) inner v → P folder place (e :: rest) v)
    (hround : source.Round folder place entries visits) :
    ∀ v ∈ visits, P folder place entries v := by
  induction hround with
  | done => simp
  | refused _ _ ih | file _ _ _ _ ih | unlisted _ _ _ _ ih =>
    intro v hv
    rcases List.mem_cons.1 hv with rfl | hv
    · exact here _ _ _ _ _
    · exact later _ _ _ _ _ (ih v hv)
  | entered hname hkind hlisted _ _ ihbelow ih =>
    intro v hv
    rcases List.mem_cons.1 hv with rfl | hv
    · exact here _ _ _ _ _
    · rcases List.mem_append.1 hv with hv | hv
      · exact outer _ _ _ _ _ _ hname hkind hlisted (ihbelow v hv)
      · exact later _ _ _ _ _ (ih v hv)

/-- Every visit of a round lies behind one of the entries that it goes through. -/
theorem Round.behind (htidy : source.Tidy) (hround : source.Round folder place entries visits)
    (horder : Orderly entries) : ∀ v ∈ visits, v.Behind folder place entries := by
  intro v hv
  refine hround.forall_visits (P := fun folder place entries v =>
    Orderly entries → v.Behind folder place entries) ?here ?later ?outer v hv horder
  case here =>
    intro folder place e rest fate horder
    exact ⟨horder.head, [], ⟨rfl, rfl, by simp⟩, e, by simp, rfl⟩
  case later =>
    intro folder place e rest v hv horder
    exact (hv horder.others).later
  case outer =>
    -- below the directory, so behind its name
    intro folder place e inner rest v hname _ hlisted hv horder
    exact (hv (htidy _ _ hlisted)).outer (isEntryName_of_isPlainName hname horder.head)

/-- The visits of a round lie beside each other, save that a directory comes before what lies
below it. -/
theorem Round.pairwise_apart (htidy : source.Tidy)
    (hround : source.Round folder place entries visits) (horder : Orderly entries) :
    visits.Pairwise Visit.Apart := by
  -- what lies behind one name is apart from what lies behind the others
  have hothers : ∀ {source : Source} {folder : String} {place : Path} {e : Entry}
      {rest : List Entry} {visits : List Visit} {v : Visit} {more : List String}, source.Tidy →
      source.Round folder place rest visits → Orderly (e :: rest) →
      v.localPath.components = place.components ++ (e.name :: more).map .name →
      ∀ w ∈ visits, v.Apart w := by
    intro source folder place e rest visits v more htidy hround horder hv w hw hvplain hwplain
    obtain ⟨e', he', others, -, hw'⟩ :=
      (hround.behind htidy horder.others w hw).exists_names hwplain
    exact Visit.apart_of_ne (horder.fresh e' he') hv hw' hvplain hwplain
  have hhere : ∀ (place : Path) {e : Entry} {rest : List Entry}, isPlainName e.name = true →
      Orderly (e :: rest) → (place.child e.name).components =
        place.components ++ [e.name].map .name :=
    fun _ _ _ hname horder => Path.components_child (isEntryName_of_isPlainName hname horder.head)
  induction hround with
  | done => exact .nil
  | refused hname _ ih =>
    refine List.pairwise_cons.2 ⟨fun w _ => ?_, ih horder.others⟩
    exact Visit.apart_of_not_plain (by simp [Visit.Plain, hname])
  | file hname _ _ hround ih =>
    exact List.pairwise_cons.2
      ⟨hothers htidy hround horder (hhere _ hname horder), ih horder.others⟩
  | unlisted hname _ _ hround ih =>
    exact List.pairwise_cons.2
      ⟨hothers htidy hround horder (hhere _ hname horder), ih horder.others⟩
  | @entered folder place e _ _ _ _ hname hkind hlisted hbelow hround ihbelow ih =>
    have hdir : (⟨folder, place, e, .entered⟩ : Visit).localPath.components =
        place.components ++ [e.name].map .name := hhere place hname horder
    refine List.pairwise_cons.2 ⟨fun w hw => ?_, List.pairwise_append.2
      ⟨ihbelow (htidy _ _ hlisted), ih horder.others, fun v hv w hw => ?_⟩⟩
    · rcases List.mem_append.1 hw with hw | hw
      · -- below the directory, so its path is longer
        intro _ hwplain
        obtain ⟨_, _, more, -, hw'⟩ :=
          (hbelow.behind htidy (htidy _ _ hlisted) w hw).exists_names hwplain
        refine ⟨fun h => ?_, fun hfile => by rw [hkind] at hfile; cases hfile⟩
        have hlength := h.length_le
        rw [hw', hdir, hhere place hname horder] at hlength
        simp at hlength
      · exact hothers htidy hround horder hdir w hw
    · intro hvplain hwplain
      obtain ⟨e', _, more, -, hv'⟩ :=
        (hbelow.behind htidy (htidy _ _ hlisted) v hv).exists_names hvplain
      have hnames : v.localPath.components =
          place.components ++ (e.name :: e'.name :: more).map .name := by
        rw [hv', hhere place hname horder, List.append_assoc]
        rfl
      exact hothers htidy hround horder hnames w hw hvplain hwplain

end Source

end GemCourier.Remote
