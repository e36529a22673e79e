/-
GemCourier/Proofs/Sync/Enumeration.lean

Which paths a scan lists.

Every listed path goes on from the root of the project by names, in one of two
ways: by one name that is not that of the library, or by the name of the
library and some more.  `Placed` says which, with the place on a storage that
goes with it.  Each listed path leads to a file, and no place is listed twice:
two directories hold no path in common, since one name tells them apart.  The
order of a walk is that of the names, so it is told from what is found.

Main results: `isFile_of_mem`, `Placed.components_eq`, `pairwise_sourcesOn`,
`leaves_eq_of_mem_iff`.
-/
import GemCourier.Proofs.Disk.WellFormed
import GemCourier.Sync.Placement
import GemCourier.Sync.Scan
import Mathlib.Data.List.Sort
import Mathlib.Data.String.Basic

namespace GemCourier

theorem Finding.leaf?_eq_some {finding : Finding} {p : Path} (h : finding.leaf? = some p) :
    finding = .leaf p := by
  cases finding with
  | leaf q => rw [Option.some.inj h]
  | unreadable folder fault => cases h

theorem Finding.mem_filterMap_leaf? {found : List Finding} {p : Path} :
    p ∈ found.filterMap leaf? ↔ .leaf p ∈ found := by
  rw [List.mem_filterMap]
  constructor
  · rintro ⟨finding, hfinding, hp⟩
    rwa [leaf?_eq_some hp] at hfinding
  · exact fun h => ⟨_, h, rfl⟩

/-! ### Walks -/

namespace Disk

variable {d : Disk} {folder p : Path} {n : String}

theorem names_ok_iff {names : List String} :
    d.names folder = .ok names ↔
      ∃ loc, d.find .through folder = .ok (.found loc) ∧ d.node? loc = some .folder ∧
        names = d.namesBelow loc := by
  unfold Disk.names
  split
  · next fault hlook =>
    simp only [reduceCtorEq, false_iff, not_exists, not_and]
    intro loc hfind hnode
    rw [lookUp_ok_iff.2 ⟨hfind, hnode⟩] at hlook
    cases hlook
  · next loc hlook =>
    obtain ⟨hfind, hnode⟩ := lookUp_ok_iff.1 hlook
    simp only [Except.ok.injEq]
    constructor
    · rintro rfl
      exact ⟨loc, hfind, hnode, rfl⟩
    · rintro ⟨loc', hfind', _, rfl⟩
      rw [hfind] at hfind'
      cases hfind'
      rfl
  · next found hother hlook =>
    simp only [reduceCtorEq, false_iff, not_exists, not_and]
    intro loc hfind hnode
    rw [lookUp_ok_iff.2 ⟨hfind, hnode⟩] at hlook
    cases hlook
    exact absurd rfl (hother loc)

theorem isEntryName_of_names (hd : d.WellFormed) {names : List String}
    (h : d.names folder = .ok names) (hn : n ∈ names) : IsEntryName n := by
  obtain ⟨loc, _, _, rfl⟩ := names_ok_iff.1 h
  exact hd.isEntryName (mem_namesBelow.1 hn) n (by simp)

theorem nodup_names (hd : d.WellFormed) {names : List String} (h : d.names folder = .ok names) :
    names.Nodup := by
  obtain ⟨loc, _, _, rfl⟩ := names_ok_iff.1 h
  exact nodup_namesBelow hd loc

theorem childrenOf_ok_iff {children : List Path} :
    d.childrenOf folder = .ok children ↔
      ∃ names, d.names folder = .ok names ∧ children = names.map folder.child := by
  unfold childrenOf
  cases d.names folder <;> simp [Except.map, eq_comm]

/-- The names in a directory are read off the entries of the disk. -/
theorem names_of_entries {names : List String} (loc : Location) (hfind : d.find .through folder = .ok (.found loc))
    (hfolder : d.node? loc = some .folder)
    (hentries : d.nodes.filterMap (fun entry =>
      if entry.1.dropLast = loc then entry.1.getLast? else none) = names)
    (hsorted : names.Pairwise fun a b => decide (a ≤ b) = true) : d.names folder = .ok names := by
  subst hentries
  exact names_ok_iff.2 ⟨loc, hfind, hfolder, (List.mergeSort_of_pairwise hsorted).symm⟩

/-- One step of a walk goes to the names in a directory. -/
theorem walkWithin_of_names {names : List String} (hnames : d.names folder = .ok names) (steps : Nat) :
    d.walkWithin (steps + 1) folder = names.flatMap fun n =>
      if d.isFolder (folder.child n) then d.walkWithin steps (folder.child n)
      else [.leaf (folder.child n)] := by
  rw [walkWithin, childrenOf_ok_iff.2 ⟨names, hnames, rfl⟩]
  exact List.flatMap_map ..

/-- A directory without directories in it is listed at once. -/
theorem leavesBelow_of_flat {names : List String} (hnames : d.names folder = .ok names)
    (hflat : ∀ n ∈ names, d.isFolder (folder.child n) = false) :
    d.leavesBelow folder = names.map fun n => .leaf (folder.child n) := by
  obtain ⟨steps, hsteps⟩ : ∃ steps, d.walkBound = steps + 1 :=
    ⟨_, (Nat.sub_add_cancel (Nat.mul_pos (Nat.succ_pos _) (Nat.succ_pos _))).symm⟩
  rw [leavesBelow, hsteps, walkWithin_of_names hnames,
    List.map_eq_flatMap (f := fun n => Finding.leaf (folder.child n))]
  refine List.flatMap_congr fun n hn => ?_
  rw [hflat n hn, if_neg Bool.false_ne_true]

/-- A walk finds what is reached from the directory by some names. -/
theorem descend_of_mem_walkWithin (hd : d.WellFormed) {steps : Nat}
    (h : .leaf p ∈ d.walkWithin steps folder) :
    ∃ names, names ≠ [] ∧ (∀ n ∈ names, IsEntryName n) ∧ p = folder.descend names := by
  induction steps generalizing folder with
  | zero => simp [walkWithin] at h
  | succ steps ih =>
    rw [walkWithin] at h
    split at h
    · simp at h
    · next children hchildren =>
      obtain ⟨names, hnames, rfl⟩ := childrenOf_ok_iff.1 hchildren
      obtain ⟨child, hchild, hp⟩ := List.mem_flatMap.1 h
      obtain ⟨n, hn, rfl⟩ := List.mem_map.1 hchild
      have hentry := isEntryName_of_names hd hnames hn
      split at hp
      · obtain ⟨more, _, hmore, rfl⟩ := ih hp
        refine ⟨n :: more, by simp, ?_, rfl⟩
        intro m hm
        rcases List.mem_cons.1 hm with rfl | hm
        · exact hentry
        · exact hmore m hm
      · simp only [List.mem_singleton, Finding.leaf.injEq] at hp
        exact ⟨[n], by simp, by simpa using hentry, hp⟩

theorem components_of_mem_walkWithin (hd : d.WellFormed) {steps : Nat}
    (h : .leaf p ∈ d.walkWithin steps folder) :
    ∃ names : List String, names ≠ [] ∧
      p.components = folder.components ++ names.map .name := by
  obtain ⟨names, hne, hnames, rfl⟩ := descend_of_mem_walkWithin hd h
  exact ⟨names, hne, Path.components_descend hnames⟩

/-- Two paths that have not the same components. -/
def Differ (p q : Path) : Prop := p.components ≠ q.components

theorem pairwise_children (hd : d.WellFormed) {names : List String}
    (h : d.names folder = .ok names) : (names.map folder.child).Pairwise Differ := by
  rw [List.pairwise_map]
  refine (nodup_names hd h).imp_of_mem ?_
  intro n m hn hm hne hsame
  rw [Path.components_child (isEntryName_of_names hd h hn),
    Path.components_child (isEntryName_of_names hd h hm)] at hsame
  exact hne (by simpa using hsame)

/-! ### The order of a walk -/

/-- The names listed in a directory ascend. -/
theorem pairwise_namesBelow (hd : d.WellFormed) (loc : Location) :
    (d.namesBelow loc).Pairwise (· < ·) := by
  have hsorted : (d.namesBelow loc).Pairwise fun a b => decide (a ≤ b) = true :=
    List.pairwise_mergeSort
      (fun a b c hab hbc => by simpa using le_trans (of_decide_eq_true hab) (of_decide_eq_true hbc))
      (fun a b => by simpa using le_total a b) _
  exact (hsorted.and (nodup_namesBelow hd loc)).imp fun ⟨hle, hne⟩ =>
    lt_of_le_of_ne (of_decide_eq_true hle) hne

/-- Both paths go on from a directory by names, and those of the first one come first in the order
of texts. -/
def Before (folder p q : Path) : Prop :=
  ∃ names others : List String, p.components = folder.components ++ names.map .name ∧
    q.components = folder.components ++ others.map .name ∧ names < others

/-- The names that a path goes on by are told from the path. -/
theorem Before.lt {names others : List String} (h : Before folder p q)
    (hp : p.components = folder.components ++ names.map .name)
    (hq : q.components = folder.components ++ others.map .name) : names < others := by
  obtain ⟨names', others', hp', hq', hlt⟩ := h
  rw [hp, List.append_cancel_left_eq, List.map_inj_right (by simp)] at hp'
  rw [hq, List.append_cancel_left_eq, List.map_inj_right (by simp)] at hq'
  rwa [hp', hq']

theorem Before.asymm (h : Before folder p q) : ¬ Before folder q p := by
  obtain ⟨names, others, hp, hq, hlt⟩ := h
  exact fun hback => lt_asymm hlt (hback.lt hq hp)

theorem Before.differ (h : Before folder p q) : Differ p q := by
  intro hsame
  obtain ⟨names, others, hp, hq, hlt⟩ := id h
  exact lt_irrefl names (h.lt hp (hsame ▸ hp))

/-- What comes before in a directory comes before in the one above. -/
theorem Before.child (hn : IsEntryName n) (h : Before (folder.child n) p q) :
    Before folder p q := by
  obtain ⟨names, others, hp, hq, hlt⟩ := h
  rw [Path.components_child hn] at hp hq
  exact ⟨n :: names, n :: others, by simp [hp], by simp [hq],
    List.cons_lt_cons_iff.2 (Or.inr ⟨rfl, hlt⟩)⟩

/-- What goes on from one child comes before what goes on from a later one. -/
theorem before_of_lt {m : String} {names others : List String} (hn : IsEntryName n)
    (hm : IsEntryName m) (hlt : n < m)
    (hp : p.components = (folder.child n).components ++ names.map .name)
    (hq : q.components = (folder.child m).components ++ others.map .name) : Before folder p q := by
  rw [Path.components_child hn] at hp
  rw [Path.components_child hm] at hq
  exact ⟨n :: names, m :: others, by simp [hp], by simp [hq],
    List.cons_lt_cons_iff.2 (Or.inl hlt)⟩

/-- A walk finds one path after the other in the order of their names. -/
theorem walkWithin_ascends (hd : d.WellFormed) (steps : Nat) (folder : Path) :
    ((d.walkWithin steps folder).filterMap Finding.leaf?).Pairwise (Before folder) := by
  induction steps generalizing folder with
  | zero => simp [walkWithin]
  | succ steps ih =>
    rw [walkWithin]
    split
    · exact .nil
    · next children hchildren =>
      obtain ⟨names, hnames, rfl⟩ := childrenOf_ok_iff.1 hchildren
      obtain ⟨loc, -, -, hlisted⟩ := names_ok_iff.1 hnames
      rw [List.filterMap_flatMap, List.pairwise_flatMap]
      -- what is found at or below a child goes on from it by names
      have hfront : ∀ child p, p ∈ (if d.isFolder child then d.walkWithin steps child
          else [Finding.leaf child]).filterMap Finding.leaf? →
          ∃ more : List String, p.components = child.components ++ more.map .name := by
        intro child p hp
        rw [Finding.mem_filterMap_leaf?] at hp
        split at hp
        · obtain ⟨more, -, hmore⟩ := components_of_mem_walkWithin hd hp
          exact ⟨more, hmore⟩
        · obtain rfl : p = child := by simpa using hp
          exact ⟨[], by simp⟩
      refine ⟨?_, ?_⟩
      · intro child hchild
        obtain ⟨n, hn, rfl⟩ := List.mem_map.1 hchild
        split
        · exact (ih (folder.child n)).imp (.child (isEntryName_of_names hd hnames hn))
        · simp [Finding.leaf?]
      · rw [List.pairwise_map]
        refine (hlisted ▸ pairwise_namesBelow hd loc).imp_of_mem ?_
        intro n m hn hm hlt p hp q hq
        obtain ⟨more, hmore⟩ := hfront _ p hp
        obtain ⟨others, hothers⟩ := hfront _ q hq
        exact before_of_lt (isEntryName_of_names hd hnames hn) (isEntryName_of_names hd hnames hm)
          hlt hmore hothers

/-- A walk finds no place twice. -/
theorem pairwise_walkWithin (hd : d.WellFormed) (steps : Nat) (folder : Path) :
    ((d.walkWithin steps folder).filterMap Finding.leaf?).Pairwise Differ :=
  (walkWithin_ascends hd steps folder).imp Before.differ

/-- Two walks that find the same paths find them in the same order. -/
theorem leaves_eq_of_mem_iff {d' : Disk} (hd : d.WellFormed) (hd' : d'.WellFormed)
    (hmem : ∀ p, .leaf p ∈ d'.leavesBelow folder ↔ .leaf p ∈ d.leavesBelow folder) :
    (d'.leavesBelow folder).filterMap Finding.leaf? =
      (d.leavesBelow folder).filterMap Finding.leaf? := by
  have hascends : ∀ {e : Disk}, e.WellFormed →
      ((e.leavesBelow folder).filterMap Finding.leaf?).Pairwise (Before folder) :=
    fun he => walkWithin_ascends he _ folder
  have hnodup : ∀ {ps : List Path}, ps.Pairwise (Before folder) → ps.Nodup :=
    fun h => h.imp fun hbefore heq => hbefore.differ (by rw [heq])
  refine List.Perm.eq_of_pairwise (fun _ _ _ _ h h' => absurd h' h.asymm) (hascends hd')
    (hascends hd) ?_
  rw [List.perm_ext_iff_of_nodup (hnodup (hascends hd')) (hnodup (hascends hd))]
  intro p
  rw [Finding.mem_filterMap_leaf?, Finding.mem_filterMap_leaf?, hmem]

end Disk

namespace Sync

variable {d : Disk} {sets : SourceSets} {root p : Path} {tail : List String}

/-! ### Members of a scan -/

theorem leaf_mem_rootFindings :
    .leaf p ∈ rootFindings d sets ↔ ∃ names, d.names sets.root = .ok names ∧
      ∃ n ∈ names, p = sets.root.child n ∧ sets.library.any p.sameAs = false ∧
        isSource d [scriptExtension] p = true := by
  unfold rootFindings
  cases hchildren : d.childrenOf sets.root with
  | error fault =>
    simp only [List.mem_singleton, reduceCtorEq, false_iff, not_exists, not_and]
    intro names hnames
    rw [Disk.childrenOf_ok_iff.2 ⟨names, hnames, rfl⟩] at hchildren
    cases hchildren
  | ok children =>
    obtain ⟨names, hnames, rfl⟩ := Disk.childrenOf_ok_iff.1 hchildren
    simp only [List.mem_map, List.mem_filter, Finding.leaf.injEq, exists_eq_right,
      Bool.and_eq_true, Bool.not_eq_true', hnames, Except.ok.injEq, exists_eq_left']
    constructor
    · rintro ⟨⟨n, hn, rfl⟩, hlibrary, hsource⟩
      exact ⟨n, hn, rfl, hlibrary, hsource⟩
    · rintro ⟨n, hn, rfl, hlibrary, hsource⟩
      exact ⟨⟨n, hn, rfl⟩, hlibrary, hsource⟩

theorem leaf_mem_libraryFindings {library : Path} :
    .leaf p ∈ libraryFindings d library ↔ .leaf p ∈ d.leavesBelow library ∧
      isSource d [scriptExtension, bytecodeExtension] p = true := by
  simp [libraryFindings]

theorem mem_sourcesOn :
    p ∈ sourcesOn d sets ↔ .leaf p ∈ rootFindings d sets ∨
      ∃ library, sets.library = some library ∧ .leaf p ∈ libraryFindings d library := by
  have hleaf : ∀ findings : List Finding,
      p ∈ findings.filterMap Finding.leaf? ↔ .leaf p ∈ findings := by
    intro findings
    rw [List.mem_filterMap]
    constructor
    · rintro ⟨finding, hfinding, hp⟩
      rwa [Finding.leaf?_eq_some hp] at hfinding
    · intro hp
      exact ⟨_, hp, rfl⟩
  rw [sourcesOn, findings, hleaf, List.mem_append]
  refine or_congr_right ?_
  cases sets.library <;> simp

/-- Every listed path leads to a file. -/
theorem isFile_of_mem (h : p ∈ sourcesOn d sets) : d.isFile p = true := by
  have hfile : ∀ {extensions}, isSource d extensions p = true → d.isFile p = true := by
    intro extensions h
    rw [isSource, Bool.and_eq_true] at h
    exact h.1
  rcases mem_sourcesOn.1 h with h | ⟨library, _, h⟩
  · obtain ⟨_, _, _, _, _, _, hsource⟩ := leaf_mem_rootFindings.1 h
    exact hfile hsource
  · exact hfile (leaf_mem_libraryFindings.1 h).2

/-! ### Places of sources -/

/-- `Placed root p tail`: the path `p` goes on from the root of a project as the path of a
source file does, and `tail` is the place that its copy has on a storage. -/
inductive Placed (root p : Path) (tail : List String) : Prop
  /-- Right under the root. -/
  | home (n : String) : n ≠ libraryName → p.components = root.components ++ [.name n] →
      tail = ["home", n] → Placed root p tail
  /-- Somewhere below the library. -/
  | library (names : List String) : names ≠ [] →
      p.components = root.components ++ .name libraryName :: names.map .name →
      tail = "lib" :: names → Placed root p tail

/-- A source goes on from the root of its project by names. -/
theorem Placed.exists_names (h : Placed root p tail) :
    ∃ names : List String, p.components = root.components ++ names.map .name := by
  rcases h with ⟨n, _, hp, _⟩ | ⟨names, _, hp, _⟩
  · exact ⟨[n], hp⟩
  · exact ⟨libraryName :: names, hp⟩

theorem isEntryName_library : IsEntryName libraryName :=
  ⟨by decide, by decide, by decide, by decide⟩

theorem components_candidate (root : Path) :
    (SourceSets.candidate root).components = root.components ++ [.name libraryName] :=
  Path.components_child isEntryName_library

/-- The library has no extension, so it is no script whatever stands there. -/
theorem ne_library_of_extension {n : String} {extensions : List String} (hn : IsEntryName n)
    (h : (root.child n).extension?.any extensions.contains = true) : n ≠ libraryName := by
  rintro rfl
  have hname : (root.child libraryName).fileName? = some libraryName := by
    rw [Path.fileName?, Path.components_child hn, List.getLast?_concat]
  -- a name without a dot in it has no extension
  have hnone : (root.child libraryName).extension? = none := by
    rw [Path.extension?, hname]
    decide
  simp [hnone] at h

theorem components_of_rootFinding (hd : d.WellFormed) (h : .leaf p ∈ rootFindings d sets) :
    ∃ n, n ≠ libraryName ∧ p.components = sets.root.components ++ [.name n] := by
  obtain ⟨names, hnames, n, hn, rfl, _, hsource⟩ := leaf_mem_rootFindings.1 h
  have hentry := Disk.isEntryName_of_names hd hnames hn
  rw [isSource, Bool.and_eq_true] at hsource
  exact ⟨n, ne_library_of_extension hentry hsource.2, Path.components_child hentry⟩

theorem components_of_libraryFinding (hd : d.WellFormed)
    (h : .leaf p ∈ libraryFindings d (SourceSets.candidate root)) :
    ∃ names : List String, names ≠ [] ∧
      p.components = root.components ++ .name libraryName :: names.map .name := by
  obtain ⟨names, hne, hcomponents⟩ :=
    Disk.components_of_mem_walkWithin hd (leaf_mem_libraryFindings.1 h).1
  refine ⟨names, hne, ?_⟩
  rw [hcomponents, components_candidate, List.append_assoc]
  rfl

/-- The place of a copy tells the source. -/
theorem Placed.components_eq {q : Path} (hp : Placed root p tail) (hq : Placed root q tail) :
    p.components = q.components := by
  rcases hp with ⟨n, _, hp, rfl⟩ | ⟨names, _, hp, rfl⟩
  · rcases hq with ⟨m, _, hq, htail⟩ | ⟨_, _, _, htail⟩
    · rw [hp, hq, show n = m by simpa using htail]
    · simp at htail
  · rcases hq with ⟨_, _, _, htail⟩ | ⟨names', _, hq, htail⟩
    · simp at htail
    · rw [hp, hq, show names = names' by simpa using htail]

/-- No place is listed twice. -/
theorem pairwise_sourcesOn (hd : d.WellFormed)
    (hlibrary : ∀ l, sets.library = some l → l = SourceSets.candidate sets.root) :
    (sourcesOn d sets).Pairwise Disk.Differ := by
  rw [sourcesOn, findings, List.filterMap_append, List.pairwise_append]
  refine ⟨?_, ?_, ?_⟩
  · unfold rootFindings
    split
    · exact .nil
    · next children hchildren =>
      obtain ⟨names, hnames, rfl⟩ := Disk.childrenOf_ok_iff.1 hchildren
      rw [List.filterMap_map, show (Finding.leaf? ∘ Finding.leaf) = some from rfl,
        List.filterMap_some]
      exact (Disk.pairwise_children hd hnames).sublist List.filter_sublist
  · split
    · next library hsome =>
      exact (Disk.pairwise_walkWithin hd _ library).sublist (List.filter_sublist.filterMap _)
    · exact .nil
  · -- the name behind the root is that of the library below the library only
    intro p hp q hq hsame
    obtain ⟨found, hfound, hp⟩ := List.mem_filterMap.1 hp
    obtain ⟨found', hfound', hq⟩ := List.mem_filterMap.1 hq
    rw [Finding.leaf?_eq_some hp] at hfound
    rw [Finding.leaf?_eq_some hq] at hfound'
    obtain ⟨n, hne, hpc⟩ := components_of_rootFinding hd hfound
    split at hfound'
    · next library hsome =>
      obtain rfl := hlibrary library hsome
      obtain ⟨names, hnames, hqc⟩ := components_of_libraryFinding hd hfound'
      rw [hpc, hqc, List.append_cancel_left_eq] at hsame
      simp_all
    · simp at hfound'

end Sync

end GemCourier
