/-
GemCourier/Proofs/Sync/Beside.lean

A storage beside a project lies aside of it.

Where a project can be opened, what a scan reads of it are the nodes at and below
one location.  If no links lead away from there, and no path of the storage
leads there, then whatever is made and written within the storage changes none
of these nodes, and every path that can be listed is read as before.

Main results: `aside_of_beside`, `apart_of_disjoint`.
-/
import GemCourier.Proofs.Sync.Apart

namespace GemCourier

namespace Path

variable {p : Path} {names : List String}

/-- The steps of a path that goes down some names are those of the path and the names. -/
theorem steps_descend (hp : p.text ≠ "") (hnames : ∀ n ∈ names, IsEntryName n) :
    (p.descend names).walked = p.walked ++ names.map .down ∧
      (p.descend names).isAbsolute = p.isAbsolute ∧
      (names ≠ [] → (p.descend names).steps = (p.descend names).walked) := by
  induction names generalizing p with
  | nil => simp [descend]
  | cons n rest ih =>
    have hn := hnames n (by simp)
    obtain ⟨hwalked, hsteps, habsolute⟩ := child_of_isEntryName hp hn
    obtain ⟨ihwalked, ihabsolute, ihsteps⟩ :=
      ih (text_child_ne_empty hp hn) fun m hm => hnames m (by simp [hm])
    refine ⟨?_, ihabsolute.trans habsolute, fun _ => ?_⟩
    · rw [descend_cons, ihwalked, hwalked, List.append_assoc]
      rfl
    · by_cases hrest : rest = []
      · subst hrest
        exact hsteps.trans hwalked.symm
      · exact ihsteps hrest

end Path

namespace Disk

variable {d d' : Disk} {root : Path} {k : Nat} {base : Location} {names : List String}

/-- What is found down some names from a path that opens is resolved from where it opens. -/
theorem find_descend_of_opens {arrival : Arrival} (hopens : d.Opens root k base) (hne : names ≠ [])
    (hnames : ∀ n ∈ names, IsEntryName n) :
    d.find .through (root.descend names) = .ok arrival ↔ d.Readable (root.descend names) ∧
      d.resolve .through k base (names.map .down) = .ok arrival := by
  obtain ⟨hwalked, habsolute, hsteps⟩ := Path.steps_descend hopens.readable.ne_empty hnames
  have horigin : d.origin (root.descend names) = d.origin root := by
    rw [origin, origin, habsolute]
  rw [find_ok_iff, hsteps hne, hwalked, horigin, hopens.way.resolve_append]

/-- What is found down some names from a place where no links stand lies straight below it. -/
theorem location_of_find_descend {loc : Location} (hbase : d.Reaches root base)
    (hfree : d.LinkFreeBelow root) (hnames : ∀ n ∈ names, IsEntryName n)
    (h : d.find .through (root.descend names) = .ok (.found loc)) : loc = base ++ names := by
  have hreaches : d.Reaches (root.descend names) loc := reaches_of_find (Or.inl (by simp)) h
  obtain ⟨base', hbase', rfl⟩ := (reaches_below hfree (Path.components_descend hnames)).1 hreaches
  rw [hbase.unique hbase']

/-- A path down some names is read on a disk that grew if it is read before. -/
theorem readable_descend_congr (hgrows : d.Grows d') (hroot : d.Readable root)
    (hnames : ∀ n ∈ names, IsEntryName n) :
    d'.Readable (root.descend names) ↔ d.Readable (root.descend names) := by
  refine ⟨fun h => ⟨h.no_nul, h.ne_empty, h.short, ?_⟩, fun h => (hgrows.readable h).1⟩
  have hstart := hroot.origin
  rwa [origin, ← (Path.steps_descend hroot.ne_empty hnames).2.1] at hstart

/-- A disk that grew, but not below a place where no links stand, is read in the same way there. -/
theorem node_descend_congr {node : Node} (hgrows : d.Grows d') (hopens : d.Opens root k base)
    (hfree : d.LinkFreeBelow root)
    (hsame : ∀ more, d'.node? (base ++ more) = d.node? (base ++ more)) (hne : names ≠ [])
    (hnames : ∀ n ∈ names, IsEntryName n) :
    d'.node (root.descend names) = .ok node ↔ d.node (root.descend names) = .ok node := by
  have hbase : d.Reaches root base := reaches_of_find (Or.inl (by simp)) (find_of_opens hopens)
  have hfind : ∀ arrival, d'.find .through (root.descend names) = .ok arrival ↔
      d.find .through (root.descend names) = .ok arrival := by
    intro arrival
    rw [find_descend_of_opens (hopens.grows hgrows) hne hnames,
      find_descend_of_opens hopens hne hnames,
      readable_descend_congr hgrows hopens.readable hnames,
      resolve_names_congr hsame (hfree base hbase)]
  rw [node_ok_iff, node_ok_iff]
  constructor
  · rintro ⟨loc, hloc, hnode⟩
    have hloc' := (hfind _).1 hloc
    obtain rfl := location_of_find_descend hbase hfree hnames hloc'
    exact ⟨_, hloc', hsame names ▸ hnode⟩
  · rintro ⟨loc, hloc, hnode⟩
    obtain rfl := location_of_find_descend hbase hfree hnames hloc
    exact ⟨_, (hfind _).2 hloc, (hsame names).trans hnode⟩

end Disk

namespace Sync

variable {d d' : Disk} {root storage p : Path} {deeds : List Deed} {k : Nat} {base : Location}

/-- Within a storage beside it, nothing is done at or below the place of a project. -/
theorem node?_below_of_within (hdeeds : d.Does deeds d')
    (hwithin : ∀ deed ∈ deeds, deed.Within storage) (hfree : d.LinkFreeBelow storage)
    (hbeside : Beside d root storage) (hbase : d.Reaches root base)
    (hstands : ∀ q more, q.components <+: storage.components → d.Reaches q (base ++ more) →
      d.node? (base ++ more) = some .folder) (more : List String) :
    d'.node? (base ++ more) = d.node? (base ++ more) := by
  rcases hdeeds.node?_eq_or (base ++ more) with
    hsame | ⟨q, hq, hreaches, hnone, -⟩ | ⟨q, bytes, _, _, hq, hreaches, -⟩
  · exact hsame
  · rcases hwithin _ hq with hpart | ⟨names, hnames⟩
    · -- the directories on the way to the storage are there already
      rw [hstands q more hpart hreaches] at hnone
      cases hnone
    · exact absurd hreaches (hbeside.not_reaches hfree hbase hnames more)
  · obtain ⟨names, -, hnames⟩ := hwithin _ hq
    exact absurd hreaches (hbeside.not_reaches hfree hbase hnames more)

/-- A path that can be listed goes down some names from the root. -/
theorem Listable.exists_descend (h : Listable root p) :
    ∃ names, names ≠ [] ∧ (∀ n ∈ names, IsEntryName n) ∧ p = root.descend names := by
  rcases h with ⟨_, n, hn, rfl, _⟩ | ⟨names, _, hnames, rfl, _⟩
  · exact ⟨[n], by simp, by simpa using hn, rfl⟩
  · refine ⟨libraryName :: names, by simp, ?_, rfl⟩
    intro n hn
    rcases List.mem_cons.1 hn with rfl | hn
    · exact isEntryName_library
    · exact hnames n hn

/-- Where a project can be opened and a storage is beside it, with no links in either, the storage
lies aside of the project, if what its path passes of the project is there. -/
theorem aside_of_beside (hopens : d.Opens root k base) (hroot : d.LinkFreeBelow root)
    (hfree : d.LinkFreeBelow storage) (hbeside : Beside d root storage)
    (hstands : ∀ q more, q.components <+: storage.components → d.Reaches q (base ++ more) →
      d.node? (base ++ more) = some .folder) : Aside root storage d := by
  intro deeds d' hdeeds hwithin
  have hbase : d.Reaches root base :=
    Disk.reaches_of_find (Or.inl (by simp)) (Disk.find_of_opens hopens)
  have hnode : ∀ names : List String, names ≠ [] → (∀ n ∈ names, IsEntryName n) → ∀ node,
      (d'.node (root.descend names) = .ok node ↔ d.node (root.descend names) = .ok node) :=
    fun _ hne hnames _ => Disk.node_descend_congr hdeeds.grows hopens hroot
      (node?_below_of_within hdeeds hwithin hfree hbeside hbase hstands) hne hnames
  refine ⟨?_, fun p hp => ?_⟩
  · have hlibrary := hnode [libraryName] (by simp) (by simpa using isEntryName_library)
      .folder
    rw [Bool.eq_iff_iff, Disk.isFolder_iff, Disk.isFolder_iff]
    exact hlibrary
  · obtain ⟨names, hne, hnames, rfl⟩ := hp.exists_descend
    have hversion : ∀ v, d'.version? (root.descend names) = some v ↔
        d.version? (root.descend names) = some v := by
      rintro ⟨bytes, t⟩
      simp only [Disk.version?_eq_some, hnode _ hne hnames]
    exact Option.ext hversion

/-- Without links, a path that never goes up passes only places above the one that it leads to. -/
theorem exists_reaches_of_initial {q : Path} {loc : Location} (hlinks : ∀ loc, d.link? loc = none)
    (hdown : .up ∉ storage.components) (hne : q.components ≠ [])
    (hq : q.components <+: storage.components) (h : d.Reaches q loc) :
    ∃ base', d.Reaches storage base' ∧ loc <+: base' := by
  obtain ⟨rest, hrest⟩ := hq
  obtain ⟨first, others, hcomponents⟩ := List.exists_cons_of_ne_nil hne
  -- behind its first component a path has only names and steps up
  have hnames : rest.all Component.isName = true := by
    refine List.all_eq_true.2 fun c hc => ?_
    have htail : c ∈ storage.components.tail := by
      rw [← hrest, hcomponents, List.cons_append, List.tail_cons]
      exact List.mem_append_right _ hc
    obtain ⟨hroot, hhere⟩ := (Path.canonical_components storage).front c htail
    cases c with
    | root => exact absurd rfl hroot
    | here => exact absurd rfl hhere
    | up => exact absurd (List.mem_of_mem_tail htail) hdown
    | name n => rfl
  obtain ⟨names, rfl⟩ := Component.all_isName_iff.1 hnames
  refine ⟨loc ++ names, ?_, List.prefix_append _ _⟩
  rw [Disk.Reaches, ← hrest]
  exact Disk.leads_append.2 ⟨loc, h, (Disk.leads_names names fun _ => hlinks _).2 rfl⟩

/-- On a disk without links a project and a storage are apart if they are disjoint trees and the
path of the storage never goes up. -/
theorem apart_of_disjoint (hd : d.WellFormed) (hstart : d.node? d.start = some .folder)
    (hlinks : ∀ loc, d.link? loc = none) (hopens : d.Opens root k base)
    (hdown : .up ∉ storage.components) (hbeside : Beside d root storage) :
    Apart root storage d where
  wellFormed := hd
  linkFree := fun _ _ _ => hlinks _
  aside := by
    have hbase : d.Reaches root base :=
      Disk.reaches_of_find (Or.inl (by simp)) (Disk.find_of_opens hopens)
    refine aside_of_beside hopens (fun _ _ _ => hlinks _) (fun _ _ _ => hlinks _) hbeside ?_
    intro q more hq hreaches
    by_cases hempty : q.components = []
    · rw [Disk.Reaches, hempty] at hreaches
      rwa [hreaches.unique (.done d.start)]
    · -- the path of a storage beside the project passes no place in it
      obtain ⟨base', hbase', hinitial⟩ := exists_reaches_of_initial hlinks hdown hempty hq hreaches
      exact absurd ((List.prefix_append base more).trans hinitial)
        (hbeside base base' hbase hbase').1

end Sync

end GemCourier
