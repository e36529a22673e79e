/-
GemCourier/Proofs/Host/Founding.lean

What making sure of a directory leaves behind, whether it succeeds or gives up.

`Founded` compares two disks: the second one is the first one with directories
at some locations where nothing stood, each found by an allowed path.  One part
of a path founds one directory or none, and what the parts found adds up along
the path, although each part is looked up on the disk that the parts before it
left.  Where a part fails, the ones before it have been made sure of, and what
stands at it is looked up on the disk that is left.

A path leads where its components lead, so behind a success it is a directory
too, unless its text is longer than any that is looked up: slashes that stand
side by side lengthen a text and add no component.  Behind a failure it never is
one, for each part of a path to a directory leads to one, and the way is blocked
at a part.

Main results: `isFolder_part`, `Blocks.not_isFolder`, `ensureFrom_founds`,
`ensure_founds`.
-/
import GemCourier.Proofs.Disk.WellFormed
import GemCourier.Proofs.Host.Ensuring
import GemCourier.Proofs.Path.Extension
import GemCourier.Proofs.Path.Folding

namespace GemCourier

/-! ### Directories founded on a disk -/

namespace Disk

/-- The second disk is the first one with directories at some locations where nothing stood, each
found by an allowed path. -/
structure Founded (d d' : Disk) (locs : List Location) (named : Path → Prop) : Prop where
  start : d'.start = d.start
  clock : d'.clock = d.clock
  distinct : locs.Nodup
  vacant : ∀ loc ∈ locs, d.node? loc = none
  found : ∀ loc ∈ locs, ∃ p, named p ∧ d'.lookUp .through p = .ok (loc, .folder)
  same : ∀ loc, loc ∉ locs → d'.node? loc = d.node? loc

namespace Founded

variable {d d' d'' : Disk} {locs more : List Location} {named wider : Path → Prop} {p : Path}

theorem refl (d : Disk) (named : Path → Prop) : d.Founded d [] named where
  start := rfl
  clock := rfl
  distinct := .nil
  vacant := by simp
  found := by simp
  same := fun _ _ => rfl

theorem mono (h : d.Founded d' locs named) (hwider : ∀ p, named p → wider p) :
    d.Founded d' locs wider :=
  { h with
    found := fun loc hloc => by
      obtain ⟨p, hp, hfound⟩ := h.found loc hloc
      exact ⟨p, hwider p hp, hfound⟩ }

theorem folder (h : d.Founded d' locs named) {loc : Location} (hloc : loc ∈ locs) :
    d'.node? loc = some .folder := by
  obtain ⟨p, -, hfound⟩ := h.found loc hloc
  exact (lookUp_ok_iff.1 hfound).2

/-- What stood on the disk before stands there unchanged. -/
theorem node?_eq (h : d.Founded d' locs named) {loc : Location} {node : Node}
    (hnode : d.node? loc = some node) : d'.node? loc = some node := by
  rw [h.same loc, hnode]
  intro hloc
  rw [h.vacant loc hloc] at hnode
  cases hnode

/-- A disk on which directories were founded has grown. -/
theorem grows (h : d.Founded d' locs named) : d.Grows d' where
  start := h.start
  stays := fun _ node hnode => ⟨node, h.node?_eq hnode, .refl node⟩
  links := by
    intro loc
    rw [link?, link?]
    by_cases hloc : loc ∈ locs
    · rw [h.folder hloc, h.vacant loc hloc]
    · rw [h.same loc hloc]

theorem trans (h : d.Founded d' locs named) (h' : d'.Founded d'' more named) :
    d.Founded d'' (locs ++ more) named where
  start := h'.start.trans h.start
  clock := h'.clock.trans h.clock
  distinct := by
    -- where a directory was founded first, nothing is vacant later
    refine List.nodup_append.2 ⟨h.distinct, h'.distinct, fun loc hloc other hother heq => ?_⟩
    have hfolder := h.folder hloc
    rw [heq, h'.vacant other hother] at hfolder
    cases hfolder
  vacant := by
    intro loc hloc
    rcases List.mem_append.1 hloc with hloc | hloc
    · exact h.vacant loc hloc
    · refine Classical.byContradiction fun hsome => ?_
      obtain ⟨node, hnode⟩ := Option.ne_none_iff_exists'.1 hsome
      obtain ⟨node', hnode', -⟩ := h.grows.stays loc node hnode
      rw [h'.vacant loc hloc] at hnode'
      cases hnode'
  found := by
    intro loc hloc
    rcases List.mem_append.1 hloc with hloc | hloc
    · obtain ⟨p, hp, hfound⟩ := h.found loc hloc
      obtain ⟨hfind, hnode⟩ := lookUp_ok_iff.1 hfound
      exact ⟨p, hp, lookUp_ok_iff.2
        ⟨find_through_of_grows h'.grows (by simp [Settled]) hfind, h'.grows.folder hnode⟩⟩
    · exact h'.found loc hloc
  same := by
    intro loc hloc
    rw [List.mem_append, not_or] at hloc
    rw [h'.same loc hloc.2, h.same loc hloc.1]

end Founded

variable {d d' : Disk} {named : Path → Prop} {p : Path} {loc : Location}

/-- A directory that is made is founded, and found by the path that it was made by. -/
theorem founded_of_makeFolder (named : Path → Prop) (hmake : d.makeFolder p = .ok d')
    (hp : named p) : ∃ loc, d.Founded d' [loc] named := by
  obtain ⟨loc, hfind, rfl⟩ := makeFolder_eq_ok.1 hmake
  have hne := ne_nil_of_find_absent hfind
  have hnone := node?_of_find_absent hfind
  have hnode : (d.put loc .folder).node? loc = some .folder := by
    rw [node?_put d hne, if_pos rfl]
  have hfound : (d.put loc .folder).find .through p = .ok (.found loc) :=
    find_through_of_grows (grows_put_folder hne hnone)
      (show Settled _ _ (.absent loc) from Or.inl hnode) hfind
  exact ⟨loc, {
    start := rfl
    clock := rfl
    distinct := by simp
    vacant := by simpa using hnone
    found := by
      intro other hother
      obtain rfl := List.mem_singleton.1 hother
      exact ⟨p, hp, lookUp_ok_iff.2 ⟨hfound, hnode⟩⟩
    same := by
      intro other hother
      rw [node?_put d hne, if_neg (by simpa using hother)] }⟩

/-- A path along components that enter a directory is one, unless nothing is looked up by its
text. -/
theorem Enters.isFolder_iff (hd : d.WellFormed) (h : d.Enters p.components loc) :
    d.isFolder p = true ↔
      p.text ≠ "" ∧ p.text.toList.contains '\x00' = false ∧
        p.text.utf8ByteSize ≤ longestPath := by
  constructor
  · intro hfolder
    obtain ⟨_, hfind, -⟩ := node_ok_iff.1 (Disk.isFolder_iff.1 hfolder)
    have hreadable := (find_ok_iff.1 hfind).1
    exact ⟨hreadable.ne_empty, hreadable.no_nul, Nat.not_lt.1 hreadable.short⟩
  · rintro ⟨hempty, hnul, hshort⟩
    have horigin : d.node? (d.origin p) = some .folder := by
      rw [origin_eq]
      exact h.origin
    obtain ⟨k, hway⟩ := h.way
    rw [← origin_eq] at hway
    have hsteps := hway.congr (Path.steps_moves p)
    exact Disk.isFolder_iff.2 (node_ok_iff.2 ⟨loc, find_ok_iff.2
      ⟨⟨hnul, hempty, Nat.not_lt.2 hshort, horigin⟩, hsteps.resolve⟩, hsteps.folder hd horigin⟩)

/-- Each part of a path to a directory leads to one. -/
theorem isFolder_part {cs : List Component} (hd : d.WellFormed) (h : d.isFolder p = true)
    (hcs : cs <+: p.components) (hne : cs ≠ []) : d.isFolder (Path.ofComponents cs) = true := by
  have hcomponents : (Path.ofComponents cs).components = cs :=
    Path.components_ofComponents ((Path.canonical_components p).initial hcs)
  obtain ⟨loc, henters⟩ := enters_of_isFolder h
  obtain ⟨-, hnul, hshort⟩ := (henters.isFolder_iff hd).1 h
  obtain ⟨rest, hrest⟩ := hcs
  rw [← hrest] at henters
  obtain ⟨outer, houter⟩ := henters.initial hne
  rw [← hcomponents] at houter
  refine (houter.isFolder_iff hd).2 ⟨fun hempty => hne ?_, ?_, ?_⟩
  · rw [← hcomponents, show Path.ofComponents cs = ⟨""⟩ from congrArg Path.mk hempty]
    decide
  · rw [Bool.eq_false_iff, ne_eq, List.contains_iff_mem, Path.mem_text_iff (by decide) (by decide)]
      at hnul ⊢
    rintro ⟨n, hn, hmem⟩
    rw [hcomponents] at hn
    exact hnul ⟨n, by rw [← hrest]; exact List.mem_append_left _ hn, hmem⟩
  · exact (Path.utf8ByteSize_part_le ⟨rest, hrest⟩ hne).trans hshort

end Disk

/-- Where the way along its components is blocked, a path leads to no directory. -/
theorem DirectoryError.Blocks.not_isFolder {d : Disk} {p : Path} {e : DirectoryError}
    (hd : d.WellFormed) (h : e.Blocks d p.components) : d.isFolder p = false := by
  obtain ⟨front, c, hpart, hpath⟩ := h.part
  refine Bool.eq_false_iff.2 fun hfolder => ?_
  have hblocked := h.holds.not_isFolder
  rw [hpath, Disk.isFolder_part hd hfolder hpart (by simp)] at hblocked
  cases hblocked

/-! ### Parts of a path, and slashes at its end -/

namespace Path

variable {p : Path} {cs : List Component}

/-- The paths written from the first components of a path. -/
def PartOf (cs : List Component) (p : Path) : Prop :=
  ∃ ds, ds <+: cs ∧ p = ofComponents ds

/-- Slashes side by side. -/
def slashes : Nat → String
  | 0 => ""
  | k + 1 => slashes k ++ "/"

theorem utf8ByteSize_slashes (k : Nat) : (slashes k).utf8ByteSize = k := by
  induction k with
  | zero => rfl
  | succ k ih =>
    rw [slashes, String.utf8ByteSize_append, ih]
    rfl

theorem components_append_slash (hp : p.text ≠ "") :
    (Path.mk (p.text ++ "/")).components = p.components := by
  obtain ⟨first, rest, hpieces⟩ := List.exists_cons_of_ne_nil p.pieces_ne_nil
  have hmore : (Path.mk (p.text ++ "/")).pieces = first :: (rest ++ [""]) := by
    rw [pieces, Text.split, String.toList_append]
    show (Text.pieces '/' (p.text.toList ++ '/' :: [])).map String.ofList = _
    rw [Text.pieces_append_sep, List.map_append, ← List.cons_append, ← hpieces]
    rfl
  have habsolute : (Path.mk (p.text ++ "/")).isAbsolute = p.isAbsolute := by
    have hne : p.text.toList ≠ [] := fun hnil => hp (String.toList_eq_nil_iff.1 hnil)
    rw [isAbsolute, isAbsolute, String.toList_append, List.head?_append_of_ne_nil _ hne]
  rw [components_eq hpieces, components_eq hmore, habsolute, List.filterMap_append]
  simp [Component.ofPiece?]

/-- Slashes at the end of a path add no component. -/
theorem components_append_slashes (hp : p.text ≠ "") (k : Nat) :
    (Path.mk (p.text ++ slashes k)).components = p.components := by
  induction k with
  | zero => rw [slashes, String.append_empty]
  | succ k ih =>
    rw [slashes, ← String.append_assoc, ← ih]
    exact components_append_slash (p := ⟨p.text ++ slashes k⟩) (by simp [hp])

end Path

namespace Directory

open GemCourier.Path

variable {h : Host} {path p : Path} {e : DirectoryError}

/-! ### Along the parts of a path -/

/-- Making sure of one directory founds as many as it says, or fails on the disk that it found. -/
theorem ensureOne_founds (path : Path) (h : Host) :
    (∃ locs, (ensureOne path).answer h = .ok locs.length ∧
        h.disk.Founded ((ensureOne path).after h).disk locs (· = path)) ∨
      ∃ e, (ensureOne path).answer h = .error e ∧ e.path = path ∧
        ((ensureOne path).after h).disk = h.disk ∧ e.HoldsOn h.disk := by
  rcases ensureOne_outcome path h with ⟨hanswer, hafter, -⟩ | ⟨hanswer, hrun⟩ | herror
  · rw [hafter]
    exact Or.inl ⟨[], hanswer, .refl _ _⟩
  · obtain ⟨loc, hfounded⟩ := Disk.founded_of_makeFolder (· = path) hrun rfl
    exact Or.inl ⟨[loc], hanswer, hfounded⟩
  · exact Or.inr herror

/-- What making sure of directories leaves where it gave up with an error: it is about the part
behind `more`, at which no directory stands, and directories have been founded at the parts before
that one only. -/
structure GaveUp (d d' : Disk) (more : List Component) (c : Component) (e : DirectoryError) :
    Prop where
  path : e.path = ofComponents (more ++ [c])
  missing : d'.isFolder e.path = false
  kind : (∃ p, e = .notDirectory p) ↔ ∃ node, d'.node e.path = .ok node
  founded : ∃ locs, d.Founded d' locs (PartOf more)

/-- What comes of making sure of the directories along `cs`, behind `front`: as many directories are
founded as are counted on top of `made`, or it gives up at one of the components. -/
def Founds (d d' : Disk) (front : List Component) (made : Nat) (cs : List Component) :
    Except DirectoryError Nat → Prop
  | .ok n => ∃ locs, n = made + locs.length ∧ d.Founded d' locs (PartOf (front ++ cs))
  | .error e => ∃ more c rest, cs = more ++ c :: rest ∧ GaveUp d d' (front ++ more) c e

/-- What is founded at the first component comes before what is founded along the others, wherever
that ends. -/
theorem Founds.cons {d mid d' : Disk} {front rest : List Component} {c : Component} {made : Nat}
    {locs : List Location} {answer : Except DirectoryError Nat}
    (hfirst : d.Founded mid locs (· = ofComponents (front ++ [c])))
    (hrest : Founds mid d' (front ++ [c]) (made + locs.length) rest answer) :
    Founds d d' front made (c :: rest) answer := by
  have hpart : ∀ more, ∀ p, p = ofComponents (front ++ [c]) → PartOf (front ++ c :: more) p := by
    rintro more p rfl
    exact ⟨_, List.append_cons front c more ▸ List.prefix_append _ _, rfl⟩
  cases answer with
  | ok n =>
    obtain ⟨later, rfl, hfounded⟩ := hrest
    rw [← List.append_cons] at hfounded
    exact ⟨locs ++ later, by rw [List.length_append, Nat.add_assoc],
      (hfirst.mono (hpart rest)).trans hfounded⟩
  | error e =>
    obtain ⟨more, c', rest', rfl, hgave⟩ := hrest
    rw [← List.append_cons] at hgave
    obtain ⟨later, hfounded⟩ := hgave.founded
    exact ⟨c :: more, c', rest', rfl, { hgave with
      founded := ⟨locs ++ later, (hfirst.mono (hpart more)).trans hfounded⟩ }⟩

/-- Making sure of the directories along some components founds as many as it counts, or gives up
at one of them. -/
theorem ensureFrom_founds (front : List Component) (made : Nat) (cs : List Component) (h : Host) :
    Founds h.disk ((ensureFrom (ofComponents front) made cs).after h).disk front made cs
      ((ensureFrom (ofComponents front) made cs).answer h) := by
  induction cs generalizing front made h with
  | nil => exact ⟨[], rfl, .refl _ _⟩
  | cons c rest ih =>
    rw [ensureFrom, ← ofComponents_concat]
    by_cases hgiven : isGiven c = true
    · simp only [hgiven, if_true]
      exact .cons (.refl _ _) (ih _ made h)
    · simp only [hgiven, Bool.false_eq_true, if_false, Act.answer_bind, Act.after_bind]
      rcases ensureOne_founds (ofComponents (front ++ [c])) h with
        ⟨locs, hanswer, hfounded⟩ | ⟨e, hanswer, hpath, hdisk, hholds⟩
      · rw [hanswer]
        exact .cons hfounded (ih _ _ _)
      · -- this part failed, and nothing was tried behind it
        rw [hanswer]
        refine ⟨[], c, rest, rfl, ?_⟩
        rw [Act.after_pure, hdisk, List.append_nil]
        exact {
          path := hpath
          missing := hholds.not_isFolder
          kind := hholds.notDirectory_iff
          founded := ⟨[], .refl _ _⟩ }

/-! ### The path itself -/

/-- The way that a path was made sure of along ends in a directory, whether it is written as the
path is or from its components; of the path itself nothing but the length of its text can keep
it. -/
theorem isFolder_of_stands {d : Disk} (hd : d.WellFormed) (hpath : path.text ≠ "")
    (hstands : Stands d ⟨""⟩ path.components)
    (horigin : d.node? (d.origin path) = some .folder) :
    d.isFolder (ofComponents path.components) = true ∧
      (d.isFolder path = true ↔ path.text.utf8ByteSize ≤ longestPath) := by
  have hcanonical := canonical_components path
  have hcomponents := components_ofComponents hcanonical
  obtain ⟨loc, henters⟩ := hstands.exists_enters (by rwa [← Disk.origin_eq])
  have hwritten : d.isFolder (ofComponents path.components) = true := by
    rcases List.eq_nil_or_concat path.components with hnil | ⟨front, c, hconcat⟩
    · exact absurd hnil (components_ne_nil hpath)
    · rw [List.concat_eq_append] at hconcat
      cases hgiven : isGiven c with
      | false =>
        have hparts : Stands d (ofComponents []) (front ++ [c]) := hconcat ▸ hstands
        have hlast := hparts.last hgiven
        rwa [List.nil_append, ← hconcat] at hlast
      | true =>
        -- a root or a `.` stands at the front, so it is the whole path
        obtain rfl : front = [] := by
          cases front with
          | nil => rfl
          | cons first others =>
            have hfront := hcanonical.front c (by simp [hconcat])
            cases c <;> simp_all [isGiven]
        rw [hconcat, List.nil_append] at hcomponents henters ⊢
        rw [← hcomponents] at henters
        refine (henters.isFolder_iff hd).2 ?_
        cases c with
        | root => decide
        | here => decide
        | up => cases hgiven
        | name n => cases hgiven
  refine ⟨hwritten, ?_⟩
  rw [henters.isFolder_iff hd, contains_nul_congr hcomponents.symm]
  obtain ⟨_, hfind, -⟩ := Disk.node_ok_iff.1 (Disk.isFolder_iff.1 hwritten)
  rw [(Disk.find_ok_iff.1 hfind).1.no_nul]
  exact ⟨fun hwhole => hwhole.2.2, fun hshort => ⟨hpath, rfl, hshort⟩⟩

/-- What making sure of a directory leaves behind.  A success has founded as many directories as it
says, all at parts of the path, which leads to a directory now, and a second call finds nothing
to do.  A failure is about a part of the path at which no directory stands, and has founded
directories at shorter parts only. -/
theorem ensure_founds (path : Path) (h : Host) (hd : h.disk.WellFormed) (hpath : path.text ≠ "") :
    (∀ n, (ensure path).answer h = .ok n →
      (h.disk.node? (h.disk.origin path) = some .folder →
        ((ensure path).after h).disk.isFolder (ofComponents path.components) = true ∧
          (((ensure path).after h).disk.isFolder path = true ↔
            path.text.utf8ByteSize ≤ longestPath)) ∧
      (∃ locs, locs.length = n ∧
        h.disk.Founded ((ensure path).after h).disk locs (PartOf path.components)) ∧
      (ensure path).answer ((ensure path).after h) = .ok 0 ∧
      (ensure path).after ((ensure path).after h) = (ensure path).after h) ∧
    ∀ e, (ensure path).answer h = .error e →
      ∃ more c rest, path.components = more ++ c :: rest ∧
        GaveUp h.disk ((ensure path).after h).disk more c e := by
  have hfounds : Founds h.disk ((ensure path).after h).disk [] 0 path.components
      ((ensure path).answer h) := ensureFrom_founds [] 0 path.components h
  constructor
  · intro n hanswer
    rw [hanswer] at hfounds
    obtain ⟨locs, hn, hfounded⟩ := hfounds
    have hstands := stands_of_ensureFrom hanswer
    refine ⟨fun horigin => ?_, ⟨locs, by rw [hn, Nat.zero_add], hfounded⟩,
      ensureFrom_of_stands hstands 0⟩
    obtain ⟨deeds, hdeeds, -⟩ :=
      (does_ensure fun _ _ => trivial : (ensure path).Does fun _ => True) h
    refine isFolder_of_stands (hdeeds.wellFormed hd) hpath hstands ?_
    rw [Disk.origin, hdeeds.grows.start]
    exact hdeeds.grows.folder horigin
  · intro e herror
    rw [herror] at hfounds
    exact hfounds

/-- A working directory that holds a link to nowhere. -/
def danglingHost : Host where
  disk := {
    nodes := [(["w"], .folder), (["w", "gone"], .link "/nowhere")]
    start := ["w"]
    clock := 1 }
  transcript := []

/-- Directories are founded although the path goes out of one of them again, and a link to nowhere
is given up at. -/
theorem ensure_founds_danglingHost :
    (((ensure ⟨"a/../b/"⟩).after danglingHost).disk.isFolder ⟨"a/../b/"⟩ = true ∧
      ∃ locs, locs.length = 2 ∧
        danglingHost.disk.Founded ((ensure ⟨"a/../b/"⟩).after danglingHost).disk locs
          (PartOf (Path.mk "a/../b/").components)) ∧
    (ensure ⟨"a/../gone/b"⟩).answer danglingHost =
        .error (.create ⟨"a/../gone"⟩ .alreadyExists) ∧
      ∃ more c rest, (Path.mk "a/../gone/b").components = more ++ c :: rest ∧
        GaveUp danglingHost.disk ((ensure ⟨"a/../gone/b"⟩).after danglingHost).disk more c
          (.create ⟨"a/../gone"⟩ .alreadyExists) := by
  obtain ⟨hok, -⟩ := ensure_founds ⟨"a/../b/"⟩ danglingHost (by decide) (by decide)
  obtain ⟨hfolder, hfounded, -⟩ := hok 2 (by decide +kernel)
  obtain ⟨-, herror⟩ := ensure_founds ⟨"a/../gone/b"⟩ danglingHost (by decide) (by decide)
  have hanswer : (ensure ⟨"a/../gone/b"⟩).answer danglingHost =
      .error (.create ⟨"a/../gone"⟩ .alreadyExists) := by decide +kernel
  exact ⟨⟨(hfolder (by decide)).2.2 (by decide), hfounded⟩, hanswer, herror _ hanswer⟩

/-- A path that ends in more slashes than a text may have bytes is made sure of, and is not looked
up afterwards. -/
theorem ensure_ok_not_isFolder :
    (ensure ⟨"a" ++ slashes 4096⟩).answer danglingHost = .ok 1 ∧
      ((ensure ⟨"a" ++ slashes 4096⟩).after danglingHost).disk.isFolder
        ⟨"a" ++ slashes 4096⟩ = false := by
  have hsame : ensure ⟨"a" ++ slashes 4096⟩ = ensure ⟨"a"⟩ := by
    rw [ensure, ensure, components_append_slashes (p := ⟨"a"⟩) (by decide)]
  refine ⟨by rw [hsame]; decide +kernel, Bool.eq_false_iff.2 fun hfolder => ?_⟩
  obtain ⟨_, hfind, -⟩ := Disk.node_ok_iff.1 (Disk.isFolder_iff.1 hfolder)
  refine (Disk.find_ok_iff.1 hfind).1.short ?_
  rw [String.utf8ByteSize_append, utf8ByteSize_slashes]
  decide

end Directory

end GemCourier
