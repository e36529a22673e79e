/-
GemCourier/Proofs/Sync/Coverage.lean

A scan lists all the sources of a project, each once and in order.

`Lists` says how a place below a directory is come by: name after name, each one
listed in the directory before it.  The sources are the files that are come by
in this way and whose last name ends as it should, one name below the root and
any number of names below the library.

Each directory is sorted for itself.  What is found at or below one child comes
before all that is found at or below a later one, so both parts of a scan ascend
in the order of components, in which a path comes before those that go on from
it.

A disk does not say that a directory cannot be read although it is there.
`sourcesBarring` is the scan that fails to read some directories besides, and it
leaves out what lies below these and nothing else.

Main results: `mem_scripts_iff`, `mem_belowLibrary_iff`, `sourcesBarring_eq`, `sources_cover`.
-/
import GemCourier.Proofs.Path.Extension
import GemCourier.Proofs.Sync.Listing
import GemCourier.Proofs.Sync.Pass

namespace GemCourier

/-- Leaves are kept or not whether they are taken out of the findings before or after. -/
theorem Finding.filterMap_leaf?_filter (keep : Path → Bool) (found : List Finding) :
    (found.filter fun
        | .leaf p => keep p
        | .unreadable .. => true).filterMap leaf? = (found.filterMap leaf?).filter keep := by
  induction found with
  | nil => rfl
  | cons finding rest ih =>
    cases finding with
    | leaf p => cases hkeep : keep p <;> simp [leaf?, hkeep, ih]
    | unreadable folder fault =>
      rw [List.filter_cons_of_pos rfl, List.filterMap_cons_none rfl, List.filterMap_cons_none rfl, ih]

/-! ### The order of paths -/

namespace Component

/-- Where a kind of component stands among the others. -/
def rank : Component → Nat
  | root => 0
  | here => 1
  | up => 2
  | name _ => 3

/-- Components are in the order of their kinds, and names in that of their texts. -/
def Less : Component → Component → Prop
  | name n, name m => n < m
  | c, c' => c.rank < c'.rank

instance : LT Component := ⟨Less⟩

end Component

namespace Path

/-- The path comes first in the order of components. -/
def Precedes (p q : Path) : Prop :=
  p.components < q.components

end Path

namespace Disk

variable {d : Disk} {folder p q : Path} {n : String} {names listed : List String}

/-- What comes before below a directory comes before in the order of components. -/
theorem Before.precedes (h : Before folder p q) : p.Precedes q := by
  obtain ⟨names, others, hp, hq, hlt⟩ := h
  rw [Path.Precedes, hp, hq]
  exact List.append_left_lt (List.map_lt (fun _ _ hless => hless) hlt)

/-! ### Names listed one below the other -/

/-- The names lead down from a directory, each of them listed in the directory before it. -/
inductive Lists (d : Disk) : Path → List String → Prop
  | one {folder : Path} {listed : List String} {n : String} :
      d.names folder = .ok listed → n ∈ listed → Lists d folder [n]
  | more {folder : Path} {listed : List String} {n : String} {rest : List String} :
      d.names folder = .ok listed → n ∈ listed → Lists d (folder.child n) rest →
      Lists d folder (n :: rest)

theorem Lists.ne_nil (h : d.Lists folder names) : names ≠ [] := by
  cases h <;> simp

/-- Nothing is listed in the directory without a name. -/
theorem Lists.text_ne_empty (h : d.Lists folder names) : folder.text ≠ "" := by
  obtain ⟨listed, hlisted⟩ : ∃ listed, d.names folder = .ok listed := by
    cases h with
    | one hlisted _ => exact ⟨_, hlisted⟩
    | more hlisted _ _ => exact ⟨_, hlisted⟩
  obtain ⟨loc, hfind, _⟩ := names_ok_iff.1 hlisted
  exact (find_ok_iff.1 hfind).1.ne_empty

theorem Lists.isEntryName (hd : d.WellFormed) (h : d.Lists folder names) :
    ∀ n ∈ names, IsEntryName n := by
  induction h with
  | one hlisted hn => simpa using isEntryName_of_names hd hlisted hn
  | more hlisted hn _ ih =>
    intro m hm
    rcases List.mem_cons.1 hm with rfl | hm
    · exact isEntryName_of_names hd hlisted hn
    · exact ih m hm

/-- The names that lead down to a file are listed. -/
theorem lists_of_isFile (hd : d.WellFormed) (hp : folder.text ≠ "") (hne : names ≠ [])
    (hnames : ∀ n ∈ names, IsEntryName n) (hfile : d.isFile (folder.descend names) = true) :
    d.Lists folder names := by
  obtain ⟨dest, hfind⟩ := exists_find_of_isFile hfile
  clear hfile
  induction names generalizing folder with
  | nil => exact absurd rfl hne
  | cons n rest ih =>
    have hn := hnames n (by simp)
    cases rest with
    | nil =>
      obtain ⟨listed, hlisted, hmem⟩ := mem_names_of_find_child hd hp hn hfind
      exact .one hlisted hmem
    | cons m others =>
      have hrest : ∀ l ∈ m :: others, IsEntryName l := fun l hl => hnames l (by simp [hl])
      have htext := Path.text_child_ne_empty hp hn
      obtain ⟨k, loc, hopens⟩ := exists_opens_of_find_descend htext (by simp) hrest hfind
      obtain ⟨listed, hlisted, hmem⟩ := mem_names_of_find_child hd hp hn (find_of_opens hopens)
      exact .more hlisted hmem (ih htext (by simp) hrest hfind)

/-! ### Directories that are not read -/

variable {barred : Path → Option Fault}

/-- A walk that fails to read some directories. -/
def walkBarring (d : Disk) (barred : Path → Option Fault) : Nat → Path → List Finding
  | 0, _ => []
  | steps + 1, folder =>
    match barred folder with
    | some fault => [.unreadable folder fault]
    | none =>
      match d.childrenOf folder with
      | .error fault => [.unreadable folder fault]
      | .ok children => children.flatMap fun child =>
          if d.isFolder child then d.walkBarring barred steps child else [.leaf child]

theorem walkBarring_none (d : Disk) : d.walkBarring (fun _ => none) = d.walkWithin := by
  funext steps folder
  induction steps generalizing folder with
  | zero => rfl
  | succ steps ih =>
    cases hchildren : d.childrenOf folder with
    | error fault => simp [walkBarring, walkWithin, hchildren]
    | ok children => simp [walkBarring, walkWithin, hchildren, ih]

/-- No directory is barred that is read on the way down from `folder` to a path. -/
def Clear (barred : Path → Option Fault) (folder p : Path) : Prop :=
  ∀ front more, more ≠ [] → (∀ n ∈ front ++ more, IsEntryName n) →
    p = folder.descend (front ++ more) → barred (folder.descend front) = none

theorem clear_child (hn : IsEntryName n) (hfree : barred folder = none)
    (hnames : ∀ m ∈ names, IsEntryName m) :
    Clear barred folder ((folder.child n).descend names) ↔
      Clear barred (folder.child n) ((folder.child n).descend names) := by
  rw [← Path.descend_cons]
  have hall : ∀ m ∈ n :: names, IsEntryName m := by
    intro m hm
    rcases List.mem_cons.1 hm with rfl | hm
    · exact hn
    · exact hnames m hm
  constructor
  · intro hclear front more hmore hentries heq
    rw [← Path.descend_cons] at heq ⊢
    refine hclear (n :: front) more hmore ?_ heq
    intro m hm
    rcases List.mem_cons.1 hm with rfl | hm
    · exact hn
    · exact hentries m hm
  · intro hclear front more hmore hentries heq
    have hsame := Path.descend_injective hall hentries heq
    cases front with
    | nil => exact hfree
    | cons m front =>
      obtain ⟨rfl, rfl⟩ := List.cons.inj hsame
      rw [Path.descend_cons]
      exact hclear front more hmore (fun l hl => hnames l hl) rfl

open scoped Classical in
/-- A walk that fails to read some directories finds what the others give, in the same order. -/
theorem walkBarring_eq (hd : d.WellFormed) (barred : Path → Option Fault) (steps : Nat)
    (folder : Path) :
    (d.walkBarring barred steps folder).filterMap Finding.leaf? =
      ((d.walkWithin steps folder).filterMap Finding.leaf?).filter fun p =>
        Clear barred folder p := by
  induction steps generalizing folder with
  | zero => rfl
  | succ steps ih =>
    cases hbarred : barred folder with
    | some fault =>
      -- everything below lies behind the directory itself
      have hnone : ((d.walkWithin (steps + 1) folder).filterMap Finding.leaf?).filter
          (fun p => Clear barred folder p) = [] := by
        refine List.filter_eq_nil_iff.2 fun p hp hclear => ?_
        obtain ⟨names, hne, hnames, rfl⟩ :=
          descend_of_mem_walkWithin hd (Finding.mem_filterMap_leaf?.1 hp)
        have hfree := (of_decide_eq_true hclear) [] names hne (by simpa using hnames) rfl
        rw [Path.descend, List.foldl_nil, hbarred] at hfree
        cases hfree
      rw [hnone, walkBarring, hbarred]
      rfl
    | none =>
      rw [walkBarring, walkWithin, hbarred]
      cases hchildren : d.childrenOf folder with
      | error fault => rfl
      | ok children =>
        obtain ⟨names, hnames, rfl⟩ := childrenOf_ok_iff.1 hchildren
        dsimp only
        rw [List.filterMap_flatMap, List.filterMap_flatMap, List.filter_flatMap]
        refine List.flatMap_congr fun child hchild => ?_
        obtain ⟨n, hn, rfl⟩ := List.mem_map.1 hchild
        have hentry := isEntryName_of_names hd hnames hn
        split
        · rw [ih]
          refine List.filter_congr fun p hp => ?_
          obtain ⟨more, -, hmore, rfl⟩ :=
            descend_of_mem_walkWithin hd (Finding.mem_filterMap_leaf?.1 hp)
          simp only [clear_child hentry hbarred hmore]
        · have hclear : Clear barred folder ((folder.child n).descend []) := by
            refine (clear_child hentry hbarred (by simp)).2 ?_
            intro front more hmore hentries heq
            have hnil := Path.descend_injective (by simp) hentries heq
            exact absurd (List.append_eq_nil_iff.1 hnil.symm).2 hmore
          rw [List.filter_eq_self.2]
          intro p hp
          obtain rfl : p = folder.child n := by simpa [Finding.leaf?] using hp
          exact decide_eq_true hclear

end Disk

namespace Sync

open Disk

variable {d : Disk} {sets : SourceSets} {root p q : Path}

/-! ### The two parts of a scan -/

/-- The scan of the root lists the files that are listed there under the name of a script. -/
theorem mem_scripts_iff (hd : d.WellFormed)
    (hlibrary : ∀ l, sets.library = some l → l = SourceSets.candidate sets.root) :
    p ∈ scripts d sets ↔ ∃ n, d.Lists sets.root [n] ∧ Path.Bears n scriptExtension ∧
      p = sets.root.child n ∧ d.isFile p = true := by
  have hextension : ∀ {n}, IsEntryName n →
      ((sets.root.child n).extension?.any [scriptExtension].contains = true ↔
        Path.Bears n scriptExtension) := by
    intro n hn
    rw [← Path.extension?_eq_some_iff (Path.components_child hn) (by decide)]
    cases (sets.root.child n).extension? <;> simp
  rw [mem_scripts hd hlibrary]
  constructor
  · rintro ⟨⟨hroot, n, hn, rfl, hany⟩, hfile⟩
    have hlists : d.Lists sets.root [n] :=
      lists_of_isFile hd hroot (by simp) (by simpa using hn) hfile
    exact ⟨n, hlists, (hextension hn).1 hany, rfl, hfile⟩
  · rintro ⟨n, hlists, hbears, rfl, hfile⟩
    have hn := hlists.isEntryName hd n (by simp)
    exact ⟨⟨hlists.text_ne_empty, n, hn, rfl, (hextension hn).2 hbears⟩, hfile⟩

/-- The scan of the library lists the files that are listed below it under the name of a script or
of a compiled file. -/
theorem mem_belowLibrary_iff (hd : d.WellFormed)
    (hlibrary : ∀ l, sets.library = some l → l = SourceSets.candidate sets.root) :
    p ∈ belowLibrary d sets ↔ ∃ library, sets.library = some library ∧
      ∃ front n, d.Lists library (front ++ [n]) ∧
        (Path.Bears n scriptExtension ∨ Path.Bears n bytecodeExtension) ∧
        p = library.descend (front ++ [n]) ∧ d.isFile p = true := by
  have hextension : ∀ {library : Path} {front : List String} {n : String},
      (∀ m ∈ front ++ [n], IsEntryName m) →
      ((library.descend (front ++ [n])).extension?.any
          [scriptExtension, bytecodeExtension].contains = true ↔
        Path.Bears n scriptExtension ∨ Path.Bears n bytecodeExtension) := by
    intro library front n hnames
    have hcomponents : (library.descend (front ++ [n])).components =
        library.components ++ front.map .name ++ [.name n] := by
      rw [Path.components_descend hnames, List.map_append, List.append_assoc]
      rfl
    rw [← Path.extension?_eq_some_iff hcomponents (by decide),
      ← Path.extension?_eq_some_iff hcomponents (by decide)]
    cases (library.descend (front ++ [n])).extension? <;> simp
  rw [mem_belowLibrary hd hlibrary]
  constructor
  · rintro ⟨⟨⟨names, hne, hnames, rfl, hany⟩, hsome⟩, hfile⟩
    have hlists := lists_of_isFile hd (text_candidate_ne_empty _) hne hnames hfile
    rcases List.eq_nil_or_concat names with rfl | ⟨front, n, rfl⟩
    · exact absurd rfl hne
    · rw [List.concat_eq_append] at hnames hany hlists hfile ⊢
      exact ⟨_, hsome, front, n, hlists, (hextension hnames).1 hany, rfl, hfile⟩
  · rintro ⟨library, hsome, front, n, hlists, hbears, rfl, hfile⟩
    have hnames := hlists.isEntryName hd
    obtain rfl := hlibrary library hsome
    exact ⟨⟨⟨_, hlists.ne_nil, hnames, rfl, (hextension hnames).2 hbears⟩, hsome⟩, hfile⟩

/-- The scripts of the root ascend. -/
theorem scripts_ascend (hd : d.WellFormed) (sets : SourceSets) :
    (scripts d sets).Pairwise (Before sets.root) := by
  rw [scripts, rootFindings]
  split
  · exact .nil
  · next children hchildren =>
    obtain ⟨names, hnames, rfl⟩ := childrenOf_ok_iff.1 hchildren
    obtain ⟨loc, -, -, hlisted⟩ := names_ok_iff.1 hnames
    rw [List.filterMap_map, show (Finding.leaf? ∘ Finding.leaf) = some from rfl,
      List.filterMap_some]
    refine List.Pairwise.sublist List.filter_sublist ?_
    rw [List.pairwise_map]
    refine (hlisted ▸ pairwise_namesBelow hd loc).imp_of_mem fun {n m} hn hm hlt => ?_
    have hn := isEntryName_of_names hd hnames hn
    have hm := isEntryName_of_names hd hnames hm
    have hself : ∀ c, (sets.root.child c).components =
        (sets.root.child c).components ++ ([] : List String).map .name := by simp
    exact before_of_lt hn hm hlt (hself n) (hself m)

/-- What is listed below the library ascends. -/
theorem belowLibrary_ascends (hd : d.WellFormed) {library : Path}
    (hsome : sets.library = some library) :
    (belowLibrary d sets).Pairwise (Before library) := by
  rw [belowLibrary, hsome]
  exact (walkWithin_ascends hd _ library).sublist (List.filter_sublist.filterMap _)

/-! ### Scans that fail to read some directories -/

/-- The sources that a scan lists that fails to read some directories. -/
def sourcesBarring (d : Disk) (barred : Path → Option Fault) (sets : SourceSets) : List Path :=
  let fromRoot : List Finding := match barred sets.root with
    | some fault => [.unreadable sets.root fault]
    | none => rootFindings d sets
  let fromLibrary : List Finding := match sets.library with
    | some library => (d.walkBarring barred d.walkBound library).filter fun
        | .leaf p => isSource d [scriptExtension, bytecodeExtension] p
        | .unreadable .. => true
    | none => []
  (fromRoot ++ fromLibrary).filterMap Finding.leaf?

theorem sourcesBarring_none (d : Disk) (sets : SourceSets) :
    sourcesBarring d (fun _ => none) sets = sourcesOn d sets := by
  rw [sourcesBarring, walkBarring_none]
  rfl

/-- A scan reads the directory `q` before it comes upon the path. -/
inductive SourceSets.Reads (sets : SourceSets) (q p : Path) : Prop
  /-- The root, for what lies right under it. -/
  | root (n : String) : IsEntryName n → n ≠ libraryName → p = sets.root.child n →
      q = sets.root → Reads sets q p
  /-- The library and the directories below it, for what goes on from them. -/
  | library (library : Path) (front more : List String) : sets.library = some library →
      more ≠ [] → (∀ n ∈ front ++ more, IsEntryName n) → p = library.descend (front ++ more) →
      q = library.descend front → Reads sets q p

variable {barred : Path → Option Fault}

/-- One name below the root is not that of the library with others behind it. -/
theorem child_ne_descend {n : String} {names : List String} (hn : IsEntryName n)
    (hother : n ≠ libraryName) (hnames : ∀ m ∈ names, IsEntryName m) :
    root.child n ≠ (SourceSets.candidate root).descend names := by
  intro heq
  have hcomponents := congrArg Path.components heq
  rw [Path.components_child hn, Path.components_descend hnames, components_candidate,
    List.append_assoc, List.append_cancel_left_eq] at hcomponents
  exact hother (Component.name.inj (List.cons.inj hcomponents).1)

/-- On the way to a script of the root only the root is read. -/
theorem reads_script (hlibrary : ∀ l, sets.library = some l → l = SourceSets.candidate sets.root)
    (hp : ListableHome sets.root p) : sets.Reads q p ↔ q = sets.root := by
  obtain ⟨-, n, hn, rfl, hextension⟩ := hp
  have hother := ne_library_of_extension hn hextension
  constructor
  · rintro (⟨_, _, _, _, hq⟩ | ⟨library, front, more, hsome, _, hnames, heq, _⟩)
    · exact hq
    · obtain rfl := hlibrary library hsome
      exact absurd heq (child_ne_descend hn hother hnames)
  · exact fun hq => .root n hn hother rfl hq

/-- On the way to a source below the library the directories from the library on are read. -/
theorem reads_belowLibrary {library : Path} (hsome : sets.library = some library)
    (hcandidate : library = SourceSets.candidate sets.root) (hp : ListableLibrary sets.root p) :
    (∀ q, sets.Reads q p → barred q = none) ↔ Clear barred library p := by
  subst hcandidate
  obtain ⟨names, hne, hnames, rfl, -⟩ := hp
  constructor
  · intro hreads front more hmore hentries heq
    exact hreads _ (.library _ front more hsome hmore hentries heq rfl)
  · rintro hclear q (⟨n, hn, hother, heq, -⟩ | ⟨_, front, more, hsome', hmore, hentries, heq, rfl⟩)
    · exact absurd heq.symm (child_ne_descend hn hother hnames)
    · obtain rfl := Option.some.inj (hsome.symm.trans hsome')
      exact hclear front more hmore hentries heq

open scoped Classical in
/-- A scan that fails to read some directories lists what it would list otherwise, but for what is
come upon through one of them. -/
theorem sourcesBarring_eq (hd : d.WellFormed)
    (hlibrary : ∀ l, sets.library = some l → l = SourceSets.candidate sets.root)
    (barred : Path → Option Fault) :
    sourcesBarring d barred sets =
      (sourcesOn d sets).filter fun p => ∀ q, sets.Reads q p → barred q = none := by
  rw [sourcesBarring, List.filterMap_append, sourcesOn_eq, List.filter_append]
  congr 1
  · have hscript : ∀ p ∈ scripts d sets,
        ((∀ q, sets.Reads q p → barred q = none) ↔ barred sets.root = none) := by
      intro p hp
      have hlistable := ((mem_scripts hd hlibrary).1 hp).1
      simp [reads_script hlibrary hlistable]
    cases hbarred : barred sets.root with
    | some fault =>
      refine (List.filter_eq_nil_iff.2 fun p hp => ?_).symm
      simp [hscript p hp, hbarred]
    | none =>
      refine (List.filter_eq_self.2 fun p hp => ?_).symm
      simp [hscript p hp, hbarred]
  · rw [belowLibrary]
    cases hsome : sets.library with
    | none => rfl
    | some library =>
      have hlisted : (libraryFindings d library).filterMap Finding.leaf? =
          ((d.leavesBelow library).filterMap Finding.leaf?).filter
            (isSource d [scriptExtension, bytecodeExtension]) :=
        Finding.filterMap_leaf?_filter _ _
      refine (Finding.filterMap_leaf?_filter _ _).trans ?_
      rw [walkBarring_eq hd, List.filter_comm, ← Disk.leavesBelow, ← hlisted]
      refine List.filter_congr fun p hp => ?_
      have hbelow : p ∈ belowLibrary d sets := by
        rw [belowLibrary, hsome]
        exact hp
      have hlistable := ((mem_belowLibrary hd hlibrary).1 hbelow).1.1
      simp only [reads_belowLibrary hsome (hlibrary library hsome) hlistable]

/-! ### A scan as a whole -/

/-- The two parts that a scan of a project lists one after the other. -/
structure Covers (d : Disk) (sets : SourceSets) (home below : List Path) : Prop where
  home_iff : ∀ p, p ∈ home ↔ ∃ n, d.Lists sets.root [n] ∧ Path.Bears n scriptExtension ∧
    p = sets.root.child n ∧ d.isFile p = true
  home_apart : ∀ p ∈ home, ∀ library, sets.library = some library → Differ p library
  below_iff : ∀ p, p ∈ below ↔ ∃ library, sets.library = some library ∧
    ∃ front n, d.Lists library (front ++ [n]) ∧
      (Path.Bears n scriptExtension ∨ Path.Bears n bytecodeExtension) ∧
      p = library.descend (front ++ [n]) ∧ d.isFile p = true
  home_ascends : home.Pairwise Path.Precedes
  below_ascends : below.Pairwise Path.Precedes
  once : (home ++ below).Pairwise Differ

open scoped Classical in
/-- A scan lists the scripts right under the root and then the sources below the library, both in
order and no place twice.  With directories that cannot be read it lists the same, but for what
is come upon through one of these. -/
theorem sources_cover (h₀ h : Host) (hd : h.disk.WellFormed) (root : Path) :
    (∃ home below, (sources ((SourceSets.resolve root).answer h₀)).answer h = home ++ below ∧
      Covers h.disk ((SourceSets.resolve root).answer h₀) home below) ∧
    ∀ barred, sourcesBarring h.disk barred ((SourceSets.resolve root).answer h₀) =
      ((sources ((SourceSets.resolve root).answer h₀)).answer h).filter fun p =>
        ∀ q, ((SourceSets.resolve root).answer h₀).Reads q p → barred q = none := by
  rw [answer_resolve, answer_sources]
  have hlibrary := library_on h₀.disk root
  refine ⟨⟨scripts h.disk _, belowLibrary h.disk _, sourcesOn_eq _ _, {
    home_iff := fun p => mem_scripts_iff hd hlibrary
    home_apart := ?_
    below_iff := fun p => mem_belowLibrary_iff hd hlibrary
    home_ascends := (scripts_ascend hd _).imp Before.precedes
    below_ascends := ?_
    once := ?_ }⟩, sourcesBarring_eq hd hlibrary⟩
  · intro p hp library hsome
    obtain ⟨⟨-, n, hn, rfl, hextension⟩, -⟩ := (mem_scripts hd hlibrary).1 hp
    obtain rfl := hlibrary library hsome
    intro hsame
    rw [Path.components_child hn, components_candidate] at hsame
    exact ne_library_of_extension hn hextension (by simpa using List.append_cancel_left hsame)
  · cases hsome : (SourceSets.on h₀.disk root).library with
    | none =>
      rw [belowLibrary, hsome]
      exact .nil
    | some library => exact (belowLibrary_ascends hd hsome).imp Before.precedes
  · rw [← sourcesOn_eq]
    exact pairwise_sourcesOn hd hlibrary

/-- A project with a hidden name, a directory named like a script and a library that is a link. -/
def variedHost : Host where
  disk := {
    nodes := [(["p"], .folder), (["p", ".rb"], .file "x".toUTF8 1 0o644),
      (["p", "a.b.rb"], .file "x".toUTF8 2 0o644), (["p", "d.rb"], .folder),
      (["p", "lib"], .link "/x"), (["x"], .folder), (["x", "u"], .folder),
      (["x", "u.rb"], .file "x".toUTF8 3 0o644), (["x", "u", "v.mrb"], .file "y".toUTF8 4 0o644)]
    start := []
    clock := 5 }
  transcript := []

theorem sources_cover_variedHost :
    ∃ home below, sourcesOn variedHost.disk (SourceSets.on variedHost.disk ⟨"/p"⟩) = home ++ below ∧
      Covers variedHost.disk (SourceSets.on variedHost.disk ⟨"/p"⟩) home below ∧
      ⟨"/p/a.b.rb"⟩ ∈ home ∧ ⟨"/p/lib/u/v.mrb"⟩ ∈ below := by
  have hd : variedHost.disk.WellFormed := by decide +kernel
  obtain ⟨⟨home, below, hlisted, hcovers⟩, -⟩ := sources_cover variedHost variedHost hd ⟨"/p"⟩
  rw [answer_resolve, answer_sources] at hlisted
  rw [answer_resolve] at hcovers
  refine ⟨home, below, hlisted, hcovers, (hcovers.home_iff _).2 ⟨"a.b.rb", ?_⟩,
    (hcovers.below_iff _).2 ⟨⟨"/p/lib"⟩, by decide +kernel, ["u"], "v.mrb", ?_⟩⟩
  · exact ⟨lists_of_isFile hd (by decide) (by decide) (by decide) (by decide +kernel),
      ⟨"a.b", by decide, by decide⟩, by decide, by decide +kernel⟩
  · exact ⟨lists_of_isFile hd (by decide) (by decide) (by decide) (by decide +kernel),
      Or.inr ⟨"v", by decide, by decide⟩, by decide, by decide +kernel⟩

end Sync

end GemCourier
