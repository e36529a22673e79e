/-
GemCourier/Proofs/Sync/Apart.lean

A project and a storage that are apart, and copies in their places.

A storage lies aside of a project if nothing that is made or written there is
seen by a scan of the project.  With no links in the storage either, the copy of
a source can be told from the copies of all others, so copying one source
changes whether its own copy holds what it should and no other's.

Whether a copy is in its place is said for the placement that the project would
have with its library.  What a scan can list goes to the same place there, and
this placement stays the same when the library comes and goes.

Main results: `Apart.of_does`, `holds_whole`, `holds_of_copyRead`, `holds_of_serves`.
-/
import GemCourier.Proofs.Sync.Copying
import GemCourier.Proofs.Sync.Destinations
import GemCourier.Proofs.Sync.Snapshots

namespace GemCourier.Sync

variable {root storage p : Path} {d d' : Disk} {deeds : List Deed} {m : Placement}

/-! ### A storage aside of the project -/

/-- Whatever is made and written within the storage, a scan of the project sees no difference. -/
def Aside (root storage : Path) (d : Disk) : Prop :=
  ∀ deeds d', d.Does deeds d' → (∀ deed ∈ deeds, deed.Within storage) →
    d'.isFolder (SourceSets.candidate root) = d.isFolder (SourceSets.candidate root) ∧
      ∀ p, Listable root p → d'.version? p = d.version? p

/-- The disk is one on which a project can be synced to a storage: no link stands in the
storage, so its places are different files, and it lies aside of the project. -/
structure Apart (root storage : Path) (d : Disk) : Prop where
  wellFormed : d.WellFormed
  linkFree : d.LinkFreeBelow storage
  aside : Aside root storage d

theorem Apart.of_does (h : Apart root storage d) (hdeeds : d.Does deeds d')
    (hwithin : ∀ deed ∈ deeds, deed.Within storage) : Apart root storage d' where
  wellFormed := hdeeds.wellFormed h.wellFormed
  linkFree := h.linkFree.grows hdeeds.grows
  aside := by
    intro more d'' hmore hwithin'
    have hboth : ∀ deed ∈ deeds ++ more, deed.Within storage := by
      intro deed hdeed
      rcases List.mem_append.1 hdeed with hdeed | hdeed
      · exact hwithin deed hdeed
      · exact hwithin' deed hdeed
    obtain ⟨hfolder, hversion⟩ := h.aside _ _ hdeeds hwithin
    obtain ⟨hfolder', hversion'⟩ := h.aside _ _ (hdeeds.append hmore) hboth
    exact ⟨hfolder'.trans hfolder.symm, fun p hp => (hversion' p hp).trans (hversion p hp).symm⟩

/-! ### Copies in their places -/

/-- The file at the destination of a source holds the bytes that the source holds. -/
def Placement.Holds (m : Placement) (d : Disk) (p : Path) : Prop :=
  ∃ q loc bytes t mode, m.destination? p = some q ∧ d.Reaches q loc ∧
    d.node? loc = some (.file bytes t mode) ∧ d.readFile p = .ok bytes

/-- The same files at the destination of a source that is the same hold it as well. -/
theorem Placement.holds_congr (hversion : d'.version? p = d.version? p)
    (hreaches : ∀ q loc, m.destination? p = some q → (d'.Reaches q loc ↔ d.Reaches q loc))
    (hfile : ∀ q loc, m.destination? p = some q → d.Reaches q loc → ∀ bytes t mode,
      (d'.node? loc = some (.file bytes t mode) ↔ d.node? loc = some (.file bytes t mode))) :
    m.Holds d' p ↔ m.Holds d p := by
  have hread : ∀ bytes, d'.readFile p = .ok bytes ↔ d.readFile p = .ok bytes := by
    intro bytes
    rw [Disk.readFile_iff_version, Disk.readFile_iff_version, hversion]
  constructor
  · rintro ⟨q, loc, bytes, t, mode, hq, hloc, hnode, hp⟩
    have hloc' := (hreaches q loc hq).1 hloc
    exact ⟨q, loc, bytes, t, mode, hq, hloc', (hfile q loc hq hloc' _ _ _).1 hnode,
      (hread bytes).1 hp⟩
  · rintro ⟨q, loc, bytes, t, mode, hq, hloc, hnode, hp⟩
    exact ⟨q, loc, bytes, t, mode, hq, (hreaches q loc hq).2 hloc,
      (hfile q loc hq hloc _ _ _).2 hnode, (hread bytes).2 hp⟩

/-- The placement of a project that has its library. -/
def Placement.whole (root storage : Path) : Placement :=
  ⟨⟨root, some (SourceSets.candidate root)⟩, Buckets.on storage⟩

theorem fits_whole (root storage : Path) : (Placement.whole root storage).Fits storage where
  library := fun _ hl => (Option.some.inj hl).symm
  buckets := rfl

theorem canList_whole (h : Listable root p) : (Placement.whole root storage).sets.CanList p :=
  h.imp id fun hlibrary => ⟨hlibrary, rfl⟩

/-- What can be listed goes where it would go if there was a library. -/
theorem destination?_whole (hfits : m.Fits storage) (hroot : m.sets.root = root)
    (hp : m.sets.CanList p) :
    (Placement.whole root storage).destination? p = m.destination? p := by
  have hhome : (Placement.whole root storage).inHome? p = m.inHome? p := by
    unfold Placement.inHome?
    rw [hroot, hfits.buckets]
    rfl
  simp only [Placement.destination?, hhome, hfits.buckets]
  cases hsome : m.sets.library with
  | some l => rw [hfits.library l hsome, hroot]; rfl
  | none =>
    rcases hp with ⟨_, n, hn, rfl, hextension⟩ | ⟨_, hsome'⟩
    · -- the name of a script is not that of the library
      have hne := ne_library_of_extension hn hextension
      have hnone : (m.sets.root.child n).relativeTo? (SourceSets.candidate root) = none := by
        rw [Path.relativeTo?_eq_none, Path.components_child hn, components_candidate, hroot,
          List.prefix_append_right_inj]
        simpa using Ne.symm hne
      simp [Placement.whole, hnone]
    · rw [hsome] at hsome'
      cases hsome'

theorem holds_whole (hfits : m.Fits storage) (hroot : m.sets.root = root)
    (hp : m.sets.CanList p) : (Placement.whole root storage).Holds d p ↔ m.Holds d p := by
  unfold Placement.Holds
  rw [destination?_whole hfits hroot hp]

/-- A copy that does not fail is in place, if the source still holds what was read of it. -/
theorem holds_of_copyRead {h : Host} (hfits : m.Fits storage) (hp : m.sets.CanList p)
    (hok : ((m.copyRead d p).answer h).isOk = true)
    (hread : ∀ bytes, d.readFile p = .ok bytes →
      ((m.copyRead d p).after h).disk.readFile p = .ok bytes) :
    m.Holds ((m.copyRead d p).after h).disk p := by
  obtain ⟨q, _, hq, -, -⟩ := destination_of_canList hfits hp
  rcases Placement.copyRead_answers (h := h) hq with hcopied | ⟨e, herror⟩
  · obtain ⟨-, bytes, hbytes, hheld⟩ := Placement.copyRead_ok hcopied
    obtain ⟨t, mode, hnode⟩ := Disk.readFile_ok_iff.1 hheld
    obtain ⟨loc, hfind, hloc⟩ := Disk.node_ok_iff.1 hnode
    exact ⟨q, loc, bytes, t, mode, hq, Disk.reaches_of_find (Or.inl (by simp)) hfind, hloc,
      hread bytes hbytes⟩
  · rw [herror] at hok
    cases hok

/-- What serves to copy a source is done within the storage. -/
theorem within_of_serves {deed : Deed} (hfits : m.Fits storage) (hp : m.sets.CanList p)
    (h : Serves m [p] deed) : deed.Within storage := by
  obtain ⟨q, tail, hq, hplaced, hcomponents⟩ := destination_of_canList hfits hp
  cases deed with
  | made r =>
    obtain ⟨_, hs, q', hq', hr⟩ := h
    obtain rfl := List.mem_singleton.1 hs
    obtain rfl : q = q' := Option.some.inj (hq.symm.trans hq')
    refine Deed.within_made tail ?_
    rw [← hcomponents]
    exact hr.trans (List.dropLast_prefix _)
  | wrote r bytes =>
    obtain ⟨_, hs, hr⟩ := h
    obtain rfl := List.mem_singleton.1 hs
    obtain rfl : q = r := Option.some.inj (hq.symm.trans hr)
    refine ⟨tail, ?_, hcomponents⟩
    rcases hplaced with ⟨n, _, _, rfl⟩ | ⟨names, _, _, rfl⟩ <;> simp

/-- Copying a source leaves the copies of the others as they are. -/
theorem holds_of_serves {q : Path} (hapart : Apart root storage d) (hfits : m.Fits storage)
    (hroot : m.sets.root = root) (hq : m.sets.CanList q) (hp : Listable root p) (hne : p ≠ q)
    (hdeeds : d.Does deeds d') (hserve : ∀ deed ∈ deeds, Serves m [q] deed) :
    (Placement.whole root storage).Holds d' p ↔ (Placement.whole root storage).Holds d p := by
  have hwithin : ∀ deed ∈ deeds, deed.Within storage :=
    fun deed hdeed => within_of_serves hfits hq (hserve deed hdeed)
  have hdiffer : p.components ≠ q.components := by
    intro hsame
    have hq' : Listable root q := hroot ▸ hq.listable
    exact hne (hp.eq_of_components hq' hsame)
  obtain ⟨_, _, hpd, hpplaced, hpcomponents⟩ :=
    destination_of_canList (fits_whole root storage) (canList_whole hp)
  obtain ⟨_, _, hqd, hqplaced, hqcomponents⟩ := destination_of_canList hfits hq
  refine Placement.holds_congr ((hapart.aside _ _ hdeeds hwithin).2 p hp)
    (fun _ _ _ => hdeeds.grows.reaches) ?_
  intro r loc hr hloc bytes t mode
  refine hdeeds.file_iff fun written b hwritten hreaches => ?_
  obtain ⟨_, hs, hdestination⟩ := hserve _ hwritten
  obtain rfl := List.mem_singleton.1 hs
  rw [hpd] at hr
  rw [hqd] at hdestination
  cases hr
  cases hdestination
  rw [hroot] at hqplaced
  exact not_reaches_both hapart.linkFree hpplaced hqplaced hdiffer hpcomponents hqcomponents hloc
    hreaches

end GemCourier.Sync
