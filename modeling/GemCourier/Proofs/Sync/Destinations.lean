/-
GemCourier/Proofs/Sync/Destinations.lean

Where the copies of listed sources go.

Scan and placement read the same paths in two ways, one going down from the
root by names, the other taking components off from the outside.  They agree:
whatever a scan lists has a destination, which goes on from the storage by the
names of its place, and different sources go to different destinations.

Main results: `Placed.destination`, `destination_of_mem`, `not_reaches_both`.
-/
import GemCourier.Proofs.Path.Relative
import GemCourier.Proofs.Sync.Listing

namespace GemCourier.Sync

variable {d : Disk} {m : Placement} {storage p q : Path} {tail : List String}

/-- The sets of a placement are those of a project, with or without its library, and its
buckets are those of a storage. -/
structure Placement.Fits (m : Placement) (storage : Path) : Prop where
  library : ∀ l, m.sets.library = some l → l = SourceSets.candidate m.sets.root
  buckets : m.buckets = Buckets.on storage

theorem fits_on (d : Disk) (root storage : Path) :
    Placement.Fits ⟨SourceSets.on d root, Buckets.on storage⟩ storage where
  library := library_on d root
  buckets := rfl

theorem isEntryName_home : IsEntryName "home" :=
  ⟨by decide, by decide, by decide, by decide⟩

theorem components_home (storage : Path) :
    (Buckets.on storage).home.components = storage.components ++ [.name "home"] :=
  Path.components_child isEntryName_home

theorem components_lib (storage : Path) :
    (Buckets.on storage).lib.components = storage.components ++ [.name "lib"] :=
  Path.components_child isEntryName_library

/-- What belongs to a source set has a destination, which goes on from the storage by the
names of its place. -/
theorem Placed.destination (hfits : m.Fits storage) (hp : Placed m.sets.root p tail)
    (hlibrary : ∀ names, tail = "lib" :: names →
      m.sets.library = some (SourceSets.candidate m.sets.root)) :
    ∃ q, m.destination? p = some q ∧
      q.components = storage.components ++ tail.map .name := by
  rcases hp with ⟨n, hne, hp, rfl⟩ | ⟨names, hnames, hp, rfl⟩
  · -- the library has another name, so the path is no path below it
    have hnone : m.sets.library.bind p.relativeTo? = none := by
      cases hsome : m.sets.library with
      | none => rfl
      | some l =>
        rw [hfits.library l hsome, Option.bind_some, Path.relativeTo?_eq_none, hp,
          components_candidate, List.prefix_append_right_inj]
        simpa using Ne.symm hne
    obtain ⟨outer, houter, hcomponents⟩ := Path.exists_parent?_of_name hp
    have hname : p.fileName? = some n := by
      rw [Path.fileName?, hp, List.getLast?_concat]
    have hentry : IsEntryName n := (Path.canonical_components p).names n (by simp [hp])
    refine ⟨m.buckets.home.child n, ?_, ?_⟩
    · simp [Placement.destination?, hnone, Placement.inHome?, houter, Path.sameAs, hcomponents,
        hname]
    · rw [Path.components_child hentry, hfits.buckets, components_home]
      simp
  · -- below the library the path is taken apart there, and not at the root
    have hsome := hlibrary names rfl
    have hbase : (SourceSets.candidate m.sets.root).components ≠ [] := by
      rw [components_candidate]
      simp
    have hbelow : p.components =
        (SourceSets.candidate m.sets.root).components ++ names.map .name := by
      rw [components_candidate, hp]
      simp
    obtain ⟨r, hr, hjoinable, hcomponents⟩ := Path.exists_relativeTo? hbase hbelow
    refine ⟨m.buckets.lib.join r, ?_, ?_⟩
    · simp [Placement.destination?, hsome, hr, Placement.inLibrary?, hcomponents, hnames,
        Component.isName]
    · rw [Path.components_join_relative hjoinable, hcomponents, hfits.buckets, components_lib]
      simp

/-- What can be listed has a destination. -/
theorem destination_of_canList (hfits : m.Fits storage) (hp : m.sets.CanList p) :
    ∃ q tail, m.destination? p = some q ∧ Placed m.sets.root p tail ∧
      q.components = storage.components ++ tail.map .name := by
  obtain ⟨tail, htail, hlibrary⟩ := hp.exists_placed
  obtain ⟨q, hq, hcomponents⟩ := htail.destination hfits hlibrary
  exact ⟨q, tail, hq, htail, hcomponents⟩

/-- Every listed source has a destination. -/
theorem destination_of_mem (hfits : m.Fits storage) (hd : d.WellFormed)
    (hp : p ∈ sourcesOn d m.sets) :
    ∃ q tail, m.destination? p = some q ∧ Placed m.sets.root p tail ∧
      q.components = storage.components ++ tail.map .name :=
  destination_of_canList hfits ((mem_sourcesOn_iff hd hfits.library).1 hp).1

/-- Where no link stands in the storage, the copies of different sources are different files. -/
theorem not_reaches_both {root q' : Path} {tail' : List String} {loc : Location}
    (hfree : d.LinkFreeBelow storage) (hp : Placed root p tail) {p' : Path}
    (hp' : Placed root p' tail') (hdiffer : p.components ≠ p'.components)
    (hq : q.components = storage.components ++ tail.map .name)
    (hq' : q'.components = storage.components ++ tail'.map .name) (h : d.Reaches q loc) :
    ¬ d.Reaches q' loc := by
  intro h'
  -- the storage is one place, so the copies differ in what comes behind it
  obtain rfl : tail = tail' := Disk.names_unique hfree hq hq' h h'
  exact hdiffer (hp.components_eq hp')

/-- Neither of two paths leads to a place at or below the place of the other. -/
def Beside (d : Disk) (root storage : Path) : Prop :=
  ∀ base base', d.Reaches root base → d.Reaches storage base' →
    ¬ base <+: base' ∧ ¬ base' <+: base

/-- Where no link stands in a storage beside a project, its paths lead nowhere at or below the
place of the project. -/
theorem Beside.not_reaches {root : Path} {base : Location} {cs : List String}
    (hbeside : Beside d root storage) (hfree : d.LinkFreeBelow storage) (hbase : d.Reaches root base)
    (hq : q.components = storage.components ++ cs.map .name) (names : List String) :
    ¬ d.Reaches q (base ++ names) := by
  intro h
  obtain ⟨base', hbase', hloc⟩ := (Disk.reaches_below hfree hq).1 h
  obtain ⟨hnot, hnot'⟩ := hbeside base base' hbase hbase'
  have hpart : base <+: base ++ names := List.prefix_append _ _
  have hpart' : base' <+: base ++ names := ⟨cs, hloc.symm⟩
  rcases List.prefix_or_prefix_of_prefix hpart hpart' with hinitial | hinitial
  · exact hnot hinitial
  · exact hnot' hinitial

/-- Where the storage lies beside the project, with no links in either, no source is the copy
of one. -/
theorem not_reaches_source {root : Path} {cs : List String} {loc : Location}
    (hroot : d.LinkFreeBelow root) (hfree : d.LinkFreeBelow storage) (hbeside : Beside d root storage)
    (hp : Placed root p tail) (hq : q.components = storage.components ++ cs.map .name)
    (h : d.Reaches q loc) : ¬ d.Reaches p loc := by
  intro h'
  obtain ⟨names, hnames⟩ := hp.exists_names
  obtain ⟨base, hbase, rfl⟩ := (Disk.reaches_below hroot hnames).1 h'
  exact hbeside.not_reaches hfree hbase hq names h

end GemCourier.Sync
