/-
GemCourier/Proofs/Sync/Listing.lean

A scan lists every source there is.

`Listable` says which paths a scan of a project can list, by their names and
extensions alone.  On any disk the listed ones among them are exactly those
that lead to files: a file below a directory is found in the directory it was
looked up in, and the bound on walks is never reached, for every directory on
the way down gains on the one above it.

Main results: `leaf_mem_leavesBelow`, `mem_scripts`, `mem_belowLibrary`, `mem_sourcesOn_on`.
-/
import GemCourier.Proofs.Disk.Opening
import GemCourier.Proofs.Sync.Enumeration

namespace GemCourier

namespace Disk

variable {d : Disk} {folder p : Path} {n : String} {names : List String}

/-! ### Walks find every file -/

theorem names_of_opens {k : Nat} {loc : Location} (hd : d.WellFormed) (h : d.Opens folder k loc) :
    d.names folder = .ok (d.namesBelow loc) :=
  names_ok_iff.2 ⟨loc, find_of_opens h, h.folder hd, rfl⟩

theorem isFolder_of_opens {k : Nat} {loc : Location} (hd : d.WellFormed)
    (h : d.Opens folder k loc) : d.isFolder folder = true :=
  isFolder_iff.2 (node_ok_iff.2 ⟨loc, find_of_opens h, h.folder hd⟩)

theorem exists_find_of_isFile (h : d.isFile p = true) :
    ∃ loc, d.find .through p = .ok (.found loc) := by
  obtain ⟨bytes, t, mode, hnode⟩ := isFile_iff.1 h
  obtain ⟨loc, hfind, -⟩ := node_ok_iff.1 hnode
  exact ⟨loc, hfind⟩

theorem isFolder_of_isFile (h : d.isFile p = true) : d.isFolder p = false := by
  obtain ⟨bytes, t, mode, hnode⟩ := isFile_iff.1 h
  simp [isFolder, hnode, Node.isFolder]

/-- Something stands under the name that was looked up. -/
theorem node?_of_resolve_down {k : Nat} {loc dest : Location}
    (h : d.resolve .through k loc [.down n] = .ok (.found dest)) : d.node? (loc ++ [n]) ≠ none := by
  intro hnone
  rw [resolve_down, hnone] at h
  split at h
  · cases h
  · have harrival := (location_of_arriveAbsent h).1
    cases harrival

/-- A file in a directory is listed there. -/
theorem mem_names_of_find_child (hd : d.WellFormed) (hp : folder.text ≠ "") (hn : IsEntryName n)
    {dest : Location} (h : d.find .through (folder.child n) = .ok (.found dest)) :
    ∃ names, d.names folder = .ok names ∧ n ∈ names := by
  obtain ⟨k, loc, hopens, hend⟩ := exists_opens_of_find_child hp hn h
  exact ⟨_, names_of_opens hd hopens, mem_namesBelow.2 (node?_of_resolve_down hend)⟩

/-- A walk finds every file below the directory if its steps make up for what no way has
gained yet. -/
theorem leaf_mem_walkWithin (hd : d.WellFormed) (hp : folder.text ≠ "") (hne : names ≠ [])
    (hnames : ∀ n ∈ names, IsEntryName n) (hfile : d.isFile (folder.descend names) = true)
    {steps : Nat} (hsteps : ∀ k loc, d.Opens folder k loc → d.walkBound ≤ steps + d.gain k loc) :
    .leaf (folder.descend names) ∈ d.walkWithin steps folder := by
  induction names generalizing folder steps with
  | nil => exact absurd rfl hne
  | cons n rest ih =>
    have hn := hnames n (by simp)
    obtain ⟨dest, hfind⟩ := exists_find_of_isFile hfile
    obtain ⟨k, loc, hopens⟩ := exists_opens_of_find_descend hp hne hnames hfind
    -- what is gained stays below the bound, so a step is left
    have hbelow := gain_lt_walkBound (k := k) (by rw [hopens.folder hd]; simp)
    obtain ⟨steps, rfl⟩ : ∃ left, steps = left + 1 := by
      have := hsteps k loc hopens
      exact Nat.exists_eq_succ_of_ne_zero (by omega)
    cases rest with
    | nil =>
      obtain ⟨listed, hlisted, hmem⟩ := mem_names_of_find_child hd hp hn hfind
      rw [walkWithin, childrenOf_ok_iff.2 ⟨listed, hlisted, rfl⟩]
      refine List.mem_flatMap.2 ⟨folder.child n, List.mem_map_of_mem hmem, ?_⟩
      have hleaf : d.isFolder (folder.child n) = false := isFolder_of_isFile hfile
      rw [hleaf]
      exact List.mem_singleton.2 rfl
    | cons m others =>
      have hrest : ∀ l ∈ m :: others, IsEntryName l := fun l hl => hnames l (by simp [hl])
      have htext := Path.text_child_ne_empty hp hn
      obtain ⟨k', loc', hopens'⟩ := exists_opens_of_find_descend htext (by simp) hrest hfind
      obtain ⟨listed, hlisted, hmem⟩ := mem_names_of_find_child hd hp hn (find_of_opens hopens')
      rw [walkWithin, childrenOf_ok_iff.2 ⟨listed, hlisted, rfl⟩]
      refine List.mem_flatMap.2 ⟨folder.child n, List.mem_map_of_mem hmem, ?_⟩
      rw [isFolder_of_opens hd hopens', if_pos rfl]
      refine ih htext (by simp) hrest hfile ?_
      intro k' loc' hopens'
      -- a way to the child is one to the directory and a step by a name, which gains something
      obtain ⟨k, loc, hparent, hway⟩ := hopens'.parent hp hn
      have hfolder : d.node? loc ≠ none := by rw [hparent.folder hd]; simp
      have hgain := gain_lt_of_way hfolder hparent.way.links_le hway
      have := hsteps k loc hparent
      omega

theorem leaf_mem_leavesBelow (hd : d.WellFormed) (hp : folder.text ≠ "") (hne : names ≠ [])
    (hnames : ∀ n ∈ names, IsEntryName n) (hfile : d.isFile (folder.descend names) = true) :
    .leaf (folder.descend names) ∈ d.leavesBelow folder :=
  leaf_mem_walkWithin hd hp hne hnames hfile fun _ _ _ => Nat.le_add_right _ _

end Disk

namespace Sync

variable {d : Disk} {sets : SourceSets} {root p : Path}

/-! ### Listable paths -/

/-- The path is one of a script right under the root of a project. -/
def ListableHome (root p : Path) : Prop :=
  root.text ≠ "" ∧ ∃ n, IsEntryName n ∧ p = root.child n ∧
    p.extension?.any [scriptExtension].contains = true

/-- The path is one of a script or a compiled file below the library of a project. -/
def ListableLibrary (root p : Path) : Prop :=
  ∃ names, names ≠ [] ∧ (∀ n ∈ names, IsEntryName n) ∧
    p = (SourceSets.candidate root).descend names ∧
    p.extension?.any [scriptExtension, bytecodeExtension].contains = true

/-- The path is one that a scan of the project can list. -/
def Listable (root p : Path) : Prop := ListableHome root p ∨ ListableLibrary root p

theorem text_candidate_ne_empty (root : Path) : (SourceSets.candidate root).text ≠ "" := by
  intro hempty
  have := components_candidate root
  rw [show SourceSets.candidate root = ⟨""⟩ from congrArg Path.mk hempty] at this
  have hnil : (Path.mk "").components = [] := by decide
  rw [hnil] at this
  simp at this

/-- Whether the sets of a project can list the path: those below the library only if the sets
have a library. -/
def SourceSets.CanList (sets : SourceSets) (p : Path) : Prop :=
  ListableHome sets.root p ∨
    ListableLibrary sets.root p ∧ sets.library = some (SourceSets.candidate sets.root)

theorem SourceSets.CanList.listable (h : sets.CanList p) : Listable sets.root p :=
  h.imp id And.left

/-- A path that can be listed is placed as a source, and below the library only while there is
a library. -/
theorem SourceSets.CanList.exists_placed (h : sets.CanList p) :
    ∃ tail, Placed sets.root p tail ∧ (∀ names, tail = "lib" :: names →
      sets.library = some (SourceSets.candidate sets.root)) := by
  rcases h with ⟨_, n, hn, rfl, hextension⟩ | ⟨⟨names, hne, hnames, rfl, _⟩, hsome⟩
  · refine ⟨["home", n], .home n (ne_library_of_extension hn hextension)
      (Path.components_child hn) rfl, ?_⟩
    intro names heq
    simp at heq
  · refine ⟨"lib" :: names, .library names hne ?_ rfl, fun _ _ => hsome⟩
    rw [Path.components_descend hnames, components_candidate, List.append_assoc]
    rfl

/-- What the scan of the root lists. -/
def scripts (d : Disk) (sets : SourceSets) : List Path :=
  (rootFindings d sets).filterMap Finding.leaf?

/-- What the scan of the library lists, if there is one. -/
def belowLibrary (d : Disk) (sets : SourceSets) : List Path :=
  match sets.library with
  | some library => (libraryFindings d library).filterMap Finding.leaf?
  | none => []

theorem sourcesOn_eq (d : Disk) (sets : SourceSets) :
    sourcesOn d sets = scripts d sets ++ belowLibrary d sets := by
  rw [sourcesOn, findings, List.filterMap_append, scripts, belowLibrary]
  cases sets.library <;> rfl

/-- The scan of the root lists the scripts that are files there. -/
theorem mem_scripts (hd : d.WellFormed)
    (hlibrary : ∀ l, sets.library = some l → l = SourceSets.candidate sets.root) :
    p ∈ scripts d sets ↔ ListableHome sets.root p ∧ d.isFile p = true := by
  rw [scripts, Finding.mem_filterMap_leaf?, leaf_mem_rootFindings]
  constructor
  · rintro ⟨names, hnames, n, hn, hp, _, hsource⟩
    have hentry := Disk.isEntryName_of_names hd hnames hn
    rw [isSource, Bool.and_eq_true] at hsource
    refine ⟨⟨?_, n, hentry, hp, hsource.2⟩, hsource.1⟩
    -- nothing is listed in the directory without a name
    intro hempty
    obtain ⟨loc, hfind, _⟩ := Disk.names_ok_iff.1 hnames
    exact (Disk.find_ok_iff.1 hfind).1.ne_empty hempty
  · rintro ⟨⟨hroot, n, hn, rfl, hextension⟩, hfile⟩
    obtain ⟨dest, hfind⟩ := Disk.exists_find_of_isFile hfile
    obtain ⟨listed, hlisted, hmem⟩ := Disk.mem_names_of_find_child hd hroot hn hfind
    refine ⟨listed, hlisted, n, hmem, rfl, ?_, by rw [isSource, hfile, hextension]; rfl⟩
    -- a script is not the library, so it is not left out of the scripts of the root
    have hother := ne_library_of_extension hn hextension
    cases hsome : sets.library with
    | none => rfl
    | some library =>
      rw [hlibrary library hsome]
      show (sets.root.child n).sameAs (SourceSets.candidate sets.root) = false
      rw [Path.sameAs, components_candidate, Path.components_child hn]
      simpa using hother

/-- The scan of the library lists the scripts and compiled files that are files below it. -/
theorem mem_belowLibrary (hd : d.WellFormed)
    (hlibrary : ∀ l, sets.library = some l → l = SourceSets.candidate sets.root) :
    p ∈ belowLibrary d sets ↔ (ListableLibrary sets.root p ∧
      sets.library = some (SourceSets.candidate sets.root)) ∧ d.isFile p = true := by
  cases hsome : sets.library with
  | none => simp [belowLibrary, hsome]
  | some library =>
    obtain rfl := hlibrary library hsome
    rw [belowLibrary, hsome, Finding.mem_filterMap_leaf?, leaf_mem_libraryFindings]
    constructor
    · rintro ⟨hleaf, hsource⟩
      obtain ⟨names, hne, hnames, hp⟩ := Disk.descend_of_mem_walkWithin hd hleaf
      rw [isSource, Bool.and_eq_true] at hsource
      exact ⟨⟨⟨names, hne, hnames, hp, hsource.2⟩, rfl⟩, hsource.1⟩
    · rintro ⟨⟨⟨names, hne, hnames, rfl, hextension⟩, -⟩, hfile⟩
      refine ⟨Disk.leaf_mem_leavesBelow hd (text_candidate_ne_empty _) hne hnames hfile, ?_⟩
      rw [isSource, hfile, hextension]
      rfl

/-- A scan lists the paths it can list that lead to files. -/
theorem mem_sourcesOn_iff (hd : d.WellFormed)
    (hlibrary : ∀ l, sets.library = some l → l = SourceSets.candidate sets.root) :
    p ∈ sourcesOn d sets ↔ sets.CanList p ∧ d.isFile p = true := by
  rw [sourcesOn_eq, List.mem_append, mem_scripts hd hlibrary, mem_belowLibrary hd hlibrary,
    ← or_and_right]
  rfl

theorem library_on (d : Disk) (root : Path) :
    ∀ l, (SourceSets.on d root).library = some l → l = SourceSets.candidate root := by
  intro l hl
  simp only [SourceSets.on] at hl
  split at hl
  · exact (Option.some.inj hl).symm
  · cases hl

/-- A library that holds a file is there. -/
theorem canList_on (hd : d.WellFormed) (h : Listable root p) (hfile : d.isFile p = true) :
    (SourceSets.on d root).CanList p := by
  refine h.imp id fun hlisted => ⟨hlisted, ?_⟩
  obtain ⟨names, hne, hnames, rfl, _⟩ := hlisted
  obtain ⟨dest, hfind⟩ := Disk.exists_find_of_isFile hfile
  obtain ⟨k, loc, hopens⟩ :=
    Disk.exists_opens_of_find_descend (text_candidate_ne_empty root) hne hnames hfind
  have hfolder := Disk.isFolder_of_opens hd hopens
  simp [SourceSets.on, hfolder]

/-- With the sets resolved on the same disk, a scan lists exactly the listable paths that lead
to files. -/
theorem mem_sourcesOn_on (hd : d.WellFormed) :
    p ∈ sourcesOn d (SourceSets.on d root) ↔ Listable root p ∧ d.isFile p = true := by
  rw [mem_sourcesOn_iff hd (library_on d root)]
  constructor
  · rintro ⟨hlist, hfile⟩
    exact ⟨hlist.listable, hfile⟩
  · rintro ⟨hlist, hfile⟩
    exact ⟨canList_on hd hlist hfile, hfile⟩

/-- Listable paths with the same components are the same path. -/
theorem Listable.eq_of_components {q : Path} (hp : Listable root p) (hq : Listable root q)
    (h : p.components = q.components) : p = q := by
  have hdescend : ∀ {names : List String}, (∀ n ∈ names, IsEntryName n) →
      ((SourceSets.candidate root).descend names).components =
        root.components ++ .name libraryName :: names.map .name := by
    intro names hnames
    rw [Path.components_descend hnames, components_candidate, List.append_assoc]
    rfl
  rcases hp with ⟨_, n, hn, rfl, _⟩ | ⟨names, hne, hnames, rfl, _⟩
  · rcases hq with ⟨_, m, hm, rfl, _⟩ | ⟨names, hne, hnames, rfl, _⟩
    · rw [Path.components_child hn, Path.components_child hm] at h
      rw [show n = m by simpa using h]
    · rw [Path.components_child hn, hdescend hnames] at h
      -- a script right under the root has one component there, and the others at least two
      simp_all
  · rcases hq with ⟨_, m, hm, rfl, _⟩ | ⟨names', hne', hnames', rfl, _⟩
    · rw [Path.components_child hm, hdescend hnames] at h
      simp_all
    · rw [hdescend hnames, hdescend hnames'] at h
      have hnames : names = names' := by
        have := List.append_cancel_left h
        simpa [List.map_inj_right] using this
      rw [hnames]

end Sync

end GemCourier
