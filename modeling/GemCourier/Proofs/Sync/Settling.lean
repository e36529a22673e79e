/-
GemCourier/Proofs/Sync/Settling.lean

Whether polls come to rest when nobody edits.

A poll compares what it scans with what the last one scanned, and the last one
made its copies after its scan.  So the only thing that there can be to report
is what these copies did, and a source is touched by it only if its path comes
by a place that they changed.  Nothing keeps a storage from lying where the
scan looks, and then the copies are sources.  Where no source comes by such a
place, the next poll finds nothing, does nothing, and so do all after it.

Main results: `does_poll`, `polls_of_settled`, `poll_settles`.
-/
import GemCourier.Proofs.Disk.Meeting
import GemCourier.Proofs.Sync.Changes
import GemCourier.Proofs.Sync.Mapping
import GemCourier.Proofs.Sync.Reporting

namespace GemCourier.Sync

variable {m : Placement} {storage : Path} {h : Host} {previous current : Snapshot}

namespace Placement

/-! ### What a poll does -/

/-- Applying changes serves to copy the sources that they ask for. -/
theorem does_apply (m : Placement) (changes : List Change) :
    (m.apply changes).Does (Serves m (changes.filterMap Change.source?)) := by
  induction changes with
  | nil => exact .pure _
  | cons c rest ih =>
    intro h
    obtain ⟨more, hmore, hserve'⟩ := ih ((m.applyOne c).after h)
    have hafter : (m.apply (c :: rest)).after h =
        (m.apply rest).after ((m.applyOne c).after h) := by simp [apply]
    rw [hafter]
    rw [Moment.disk_after_applyOne] at hmore
    cases hsource : c.source? with
    | none =>
      rw [hsource] at hmore
      exact ⟨more, hmore, by rwa [List.filterMap_cons_none hsource]⟩
    | some p =>
      rw [hsource] at hmore
      obtain ⟨deeds, hdeeds, hserve⟩ := does_copyFile (m := m) p h
      refine ⟨deeds ++ more, hdeeds.append hmore, fun deed hdeed => ?_⟩
      rw [List.filterMap_cons_some hsource]
      rcases List.mem_append.1 hdeed with hdeed | hdeed
      · exact (hserve deed hdeed).mono (by simp)
      · exact (hserve' deed hdeed).mono (by simp +contextual)

/-- The changes that a poll finds. -/
def changesOn (m : Placement) (previous : Snapshot) (h : Host) : List Change :=
  (Snapshot.on h.disk (m.refresh.answer h).sets).changesSince previous

/-- A poll serves to copy the sources that its changes ask for. -/
theorem does_poll (m : Placement) (previous : Snapshot) (h : Host) :
    ∃ deeds, h.disk.Does deeds ((m.poll previous).after h).disk ∧ ∀ deed ∈ deeds,
      Serves (m.refresh.answer h) ((m.changesOn previous h).filterMap Change.source?) deed := by
  obtain ⟨deeds, hdeeds, hserve⟩ := does_apply (m.refresh.answer h) (m.changesOn previous h)
    (((m.refresh.answer h).detect previous).after (m.refresh.after h))
  rw [Moment.disk_after_detect, Moment.disk_after_refresh] at hdeeds
  rw [(Moment.poll_eq m previous h).2]
  exact ⟨deeds, hdeeds, hserve⟩

/-! ### Polls that find nothing -/

theorem sets_refresh (hfits : m.Fits storage) (h : Host) :
    (m.refresh.answer h).sets = SourceSets.on h.disk m.sets.root := by
  rw [refresh_eq hfits]

/-- A poll that finds no change does nothing. -/
theorem poll_of_settled (hnil : m.changesOn previous h = []) :
    (m.poll previous).answer h =
        (m.refresh.answer h, Snapshot.on h.disk (m.refresh.answer h).sets) ∧
      ((m.poll previous).after h).disk = h.disk ∧
      ((m.poll previous).after h).printed = h.printed := by
  obtain ⟨hanswer, hafter⟩ := Moment.poll_eq m previous h
  rw [changesOn] at hnil
  rw [hnil, apply, Act.after_pure] at hafter
  refine ⟨hanswer, ?_, ?_⟩
  · rw [hafter, Moment.disk_after_detect, Moment.disk_after_refresh]
  · rw [hafter, detect_keeps Act.aloof_printed.note, refresh_keeps Act.aloof_printed.note]

/-- The poll after one that finds no change finds none. -/
theorem changesOn_of_settled (hfits : m.Fits storage) (hd : h.disk.WellFormed)
    (hnil : m.changesOn previous h = []) :
    let next := (m.poll previous).answer h
    next.1.Fits storage ∧ next.1.changesOn next.2 ((m.poll previous).after h) = [] := by
  intro next
  obtain ⟨hanswer, hdisk, -⟩ := poll_of_settled hnil
  have hfits' : (m.refresh.answer h).Fits storage := fits_refresh hfits h
  have hnext : next = (m.refresh.answer h, Snapshot.on h.disk (m.refresh.answer h).sets) := hanswer
  rw [hnext]
  dsimp only
  refine ⟨hfits', ?_⟩
  rw [changesOn, hdisk, sets_refresh hfits', hdisk, sets_refresh hfits]
  exact Snapshot.changesSince_on hd (library_on h.disk m.sets.root)

/-- Once a poll finds no change, polls find none, and leave the disk and the operator alone. -/
theorem polls_of_settled (m : Placement) (previous : Snapshot) (h : Host) (n : Nat)
    (hfits : m.Fits storage) (hd : h.disk.WellFormed) (hnil : m.changesOn previous h = []) :
    let current := (m.polls n previous).answer h
    let later := (m.polls n previous).after h
    current.1.changesOn current.2 later = [] ∧ later.disk = h.disk ∧ later.printed = h.printed := by
  induction n generalizing m previous h with
  | zero => exact ⟨hnil, rfl, rfl⟩
  | succ n ih =>
    obtain ⟨hfits', hnil'⟩ := changesOn_of_settled hfits hd hnil
    obtain ⟨-, hdisk, hprinted⟩ := poll_of_settled hnil
    obtain ⟨hchanges, hdisk', hprinted'⟩ := ih _ _ _ hfits' (by rwa [hdisk]) hnil'
    simp only [polls, Act.answer_bind, Act.after_bind]
    exact ⟨hchanges, hdisk'.trans hdisk, hprinted'.trans hprinted⟩

/-! ### What the next poll finds -/

/-- Two scans of a project tell no path apart that comes by no change, and files are there for the
second one if they were for the first. -/
theorem changesSince_grown {d d' : Disk} {root : Path} (hd : d.WellFormed) (hd' : d'.WellFormed)
    (hgrows : d.Grows d') {c : Change}
    (hc : c ∈ (Snapshot.on d' (SourceSets.on d' root)).changesSince
      (Snapshot.on d (SourceSets.on d root))) :
    c.kind ≠ .deleted ∧ c.path ∈ sourcesOn d' (SourceSets.on d' root) ∧
      d.MeetsChange d' c.path := by
  have hlibrary := library_on d root
  have hlibrary' := library_on d' root
  rw [Snapshot.changesSince, List.mem_append, List.mem_filterMap, Snapshot.mem_deletions] at hc
  rcases hc with ⟨⟨p, t⟩, he, hchange⟩ | ⟨-, hmem, hnone⟩
  · obtain ⟨hpath, hkind⟩ := Snapshot.changeOf?_eq_some.1 hchange
    obtain ⟨hlist, bytes, hversion⟩ := (Snapshot.mem_entries_on hd' hlibrary').1 he
    have hfile : d'.isFile p = true := Disk.isFile_iff_version.2 ⟨bytes, t, hversion⟩
    rw [hpath]
    refine ⟨fun hdeleted => ?_, (mem_sourcesOn_on hd').2 ⟨hlist.listable, hfile⟩, ?_⟩
    · rw [hdeleted] at hkind
      exact absurd (Snapshot.kindBetween?_eq_deleted.1 hkind).2 (by simp)
    · by_contra hunmet
      -- the same version was there for the first scan, which then has its time
      have hnode : d'.node p = d.node p := Disk.node_of_unmet hgrows hunmet
      have hversion' : d.version? p = some (bytes, t) := by
        rw [← hversion, Disk.version?, Disk.version?, hnode]
      have hfile' : d.isFile p = true := Disk.isFile_iff_version.2 ⟨bytes, t, hversion'⟩
      have htime := (Snapshot.time?_on hd hlibrary hlist.listable).2
        ⟨canList_on hd hlist.listable hfile', bytes, hversion'⟩
      rw [htime, Snapshot.kindBetween?_eq_none.2 rfl] at hkind
      cases hkind
  · -- nothing is removed, so what was a file is one
    obtain ⟨t, he⟩ := Snapshot.mem_paths.1 hmem
    obtain ⟨hlist, bytes, hversion⟩ := (Snapshot.mem_entries_on hd hlibrary).1 he
    obtain ⟨bytes', hread⟩ := hgrows.exists_readFile
      (Disk.readFile_iff_version.2 ⟨t, hversion⟩)
    obtain ⟨t', hversion'⟩ := Disk.readFile_iff_version.1 hread
    have hfile : d'.isFile c.path = true := Disk.isFile_iff_version.2 ⟨bytes', t', hversion'⟩
    have htime := (Snapshot.time?_on hd' hlibrary' hlist.listable).2
      ⟨canList_on hd' hlist.listable hfile, bytes', hversion'⟩
    rw [hnone] at htime
    cases htime

/-- What a poll changed on the disk are places of its copies, or of directories on the way to
them. -/
theorem exists_copy_of_changed (m : Placement) (previous : Snapshot) (h : Host) {loc : Location}
    (hchanged : ((m.poll previous).after h).disk.node? loc ≠ h.disk.node? loc) :
    ∃ c ∈ m.changesOn previous h, ∃ q r, (m.refresh.answer h).destination? c.path = some q ∧
      r.components <+: q.components ∧ h.disk.Reaches r loc := by
  have hsource : ∀ {s}, s ∈ (m.changesOn previous h).filterMap Change.source? →
      ∃ c ∈ m.changesOn previous h, c.path = s := by
    intro s hs
    obtain ⟨c, hc, hcs⟩ := List.mem_filterMap.1 hs
    rw [Change.source?] at hcs
    split at hcs
    · cases hcs
    · exact ⟨c, hc, Option.some.inj hcs⟩
  obtain ⟨deeds, hdeeds, hserve⟩ := does_poll m previous h
  rcases hdeeds.node?_eq_or loc with
    hsame | ⟨r, hr, hreaches, -⟩ | ⟨q, bytes, _, _, hq, hreaches, -⟩
  · exact absurd hsame hchanged
  · obtain ⟨s, hs, q, hq, hinitial⟩ := hserve _ hr
    obtain ⟨c, hc, rfl⟩ := hsource hs
    exact ⟨c, hc, q, r, hq, hinitial.trans (List.dropLast_prefix _), hreaches⟩
  · obtain ⟨s, hs, hdestination⟩ := hserve _ hq
    obtain ⟨c, hc, rfl⟩ := hsource hs
    exact ⟨c, hc, q, q, hdestination, List.prefix_rfl, hreaches⟩

/-- After a poll that nobody edits behind, wherever the storage lies, the next poll finds nothing
but new and modified sources whose paths come by a place that the poll itself changed: that of a
copy, or of a directory that it made on the way to one.  If there is no such source, this poll and
all after it find no change, print nothing and leave the disk as it is. -/
theorem poll_settles (storage : Path) (m : Placement) (h : Host) (previous : Snapshot)
    (hfits : m.Fits storage) (hd : h.disk.WellFormed) :
    let next := (m.poll previous).answer h
    let after := (m.poll previous).after h
    let sources := sourcesOn after.disk (next.1.refresh.answer after).sets
    (∀ c ∈ next.1.changesOn next.2 after, c.kind ≠ .deleted ∧ c.path ∈ sources ∧
      ∃ met, h.disk.Meets h.disk.start c.path.components met ∧
        after.disk.node? met ≠ h.disk.node? met ∧
        ∃ copied ∈ m.changesOn previous h, ∃ q r,
          (m.refresh.answer h).destination? copied.path = some q ∧
          r.components <+: q.components ∧ h.disk.Reaches r met) ∧
    ((∀ p ∈ sources, ¬ h.disk.MeetsChange after.disk p) → ∀ n,
      let current := (next.1.polls n next.2).answer after
      let later := (next.1.polls n next.2).after after
      current.1.changesOn current.2 later = [] ∧ later.disk = after.disk ∧
        later.printed = after.printed) := by
  intro next after sources
  obtain ⟨deeds, hdeeds, -⟩ := does_poll m previous h
  have hafter : after.disk.WellFormed := hdeeds.wellFormed hd
  have hfits' : (m.refresh.answer h).Fits storage := fits_refresh hfits h
  have hnext : next = (m.refresh.answer h, Snapshot.on h.disk (m.refresh.answer h).sets) :=
    (Moment.poll_eq m previous h).1
  have hroot : (m.refresh.answer h).sets.root = m.sets.root := by rw [sets_refresh hfits]; rfl
  have hsets : (next.1.refresh.answer after).sets = SourceSets.on after.disk m.sets.root := by
    rw [hnext, sets_refresh hfits', hroot]
  have hfound : ∀ c ∈ next.1.changesOn next.2 after, c.kind ≠ .deleted ∧ c.path ∈ sources ∧
      h.disk.MeetsChange after.disk c.path := by
    intro c hc
    rw [changesOn, hsets, hnext, sets_refresh hfits] at hc
    have hfound := changesSince_grown hd hafter hdeeds.grows hc
    rwa [← hsets] at hfound
  constructor
  · intro c hc
    obtain ⟨hkind, hmem, met, hmet, hchanged⟩ := hfound c hc
    exact ⟨hkind, hmem, met, hmet, hchanged, exists_copy_of_changed m previous h hchanged⟩
  · intro hunmet n
    have hnextFits : next.1.Fits storage := by
      rw [hnext]
      dsimp only
      exact hfits'
    refine polls_of_settled next.1 next.2 after n hnextFits hafter
      (List.eq_nil_iff_forall_not_mem.2 fun c hc => ?_)
    obtain ⟨-, hmem, hmeets⟩ := hfound c hc
    exact hunmet _ hmem hmeets

theorem link?_smallHost (loc : Location) : smallHost.disk.link? loc = none :=
  Disk.link?_eq_none (by simp [smallHost]) loc

/-- On the disk of the small host, the parts of an absolute path lead to the places on its way. -/
theorem prefix_of_reaches_smallHost {r : Path} {names : List String} {met : Location}
    (hr : r.components <+: .root :: names.map .name) (h : smallHost.disk.Reaches r met) :
    met <+: names := by
  rw [Disk.Reaches] at h
  cases hcomponents : r.components with
  | nil =>
    rw [hcomponents] at h
    cases h
    exact List.nil_prefix
  | cons c rest =>
    rw [hcomponents] at h hr
    obtain ⟨rfl, hrest⟩ := List.cons_prefix_cons.1 hr
    rw [List.prefix_iff_eq_take, ← List.map_take] at hrest
    rw [hrest] at h
    cases h with
    | root h =>
      rw [(Disk.leads_names _ fun _ => link?_smallHost _).1 h, List.nil_append]
      exact List.take_prefix _ _

/-- Beside its project a storage is out of sight: no path of a source comes by a copy. -/
theorem poll_settles_smallHost :
    let m : Placement := ⟨SourceSets.on smallHost.disk ⟨"/p"⟩, Buckets.on ⟨"/s"⟩⟩
    let next := (m.poll .empty).answer smallHost
    let after := (m.poll .empty).after smallHost
    ∀ n,
      let current := (next.1.polls n next.2).answer after
      let later := (next.1.polls n next.2).after after
      current.1.changesOn current.2 later = [] ∧ later.disk = after.disk ∧
        later.printed = after.printed := by
  intro m next after
  have hd : smallHost.disk.WellFormed := by decide
  have hfits : m.Fits ⟨"/s"⟩ := fits_on _ _ _
  have hrefreshed : (m.refresh.answer smallHost).Fits ⟨"/s"⟩ := fits_refresh hfits _
  obtain ⟨deeds, hdeeds, -⟩ := does_poll m .empty smallHost
  have hafter : after.disk.WellFormed := hdeeds.wellFormed hd
  refine (poll_settles ⟨"/s"⟩ m smallHost .empty hfits hd).2 ?_
  rw [(Moment.poll_eq m .empty smallHost).1]
  dsimp only
  rw [sets_refresh hrefreshed, sets_refresh hfits]
  rintro p hp ⟨met, hmet, hchanged⟩
  -- the path of a source goes down from the project
  obtain ⟨names, hbelow⟩ : ∃ names, met <+: "p" :: names := by
    obtain ⟨_, _, -, hplaced, -⟩ := destination_of_mem (fits_on after.disk ⟨"/p"⟩ ⟨"/s"⟩) hafter hp
    obtain ⟨names, hnames⟩ := hplaced.exists_names
    have hroot : (⟨"/p"⟩ : Path).components = [.root, .name "p"] := by decide
    have hcomponents : p.components = .root :: ("p" :: names).map .name := by
      rw [hnames]
      exact congrArg (· ++ names.map .name) hroot
    rw [hcomponents] at hmet
    cases hmet with
    | stop => exact ⟨[], List.nil_prefix⟩
    | root hmet =>
      obtain ⟨front, hfront, rfl⟩ := Disk.meets_names (fun _ => link?_smallHost _) hmet
      exact ⟨names, hfront⟩
  -- and what the poll changed lies in the storage
  obtain ⟨names', hstorage⟩ : ∃ names', met <+: "s" :: names' := by
    obtain ⟨c, -, q, r, hq, hr, hreaches⟩ := exists_copy_of_changed m .empty smallHost hchanged
    have hroot : (⟨"/s"⟩ : Path).components = [.root, .name "s"] := by decide
    rcases exists_of_destination? hq with ⟨_, names, -, -, -, hq⟩ | ⟨n, -, hq⟩
    · rw [hrefreshed.buckets, components_lib, hroot] at hq
      rw [hq] at hr
      exact ⟨"lib" :: names, prefix_of_reaches_smallHost (by simpa using hr) hreaches⟩
    · rw [hrefreshed.buckets, components_home, hroot] at hq
      rw [hq] at hr
      exact ⟨["home", n], prefix_of_reaches_smallHost (by simpa using hr) hreaches⟩
  cases met with
  | nil => exact hchanged (by rw [Disk.node?_nil, Disk.node?_nil])
  | cons first rest =>
    obtain ⟨rfl, -⟩ := List.cons_prefix_cons.1 hbelow
    exact absurd (List.cons_prefix_cons.1 hstorage).1 (by decide)

/-! ### A storage that is the project itself -/

/-- A host with a project whose storage is the project itself: the `lib` bucket is the library. -/
def selfHost : Host where
  disk := {
    nodes := [(["p"], .folder), (["p", "lib"], .folder),
      (["p", "lib", "a.rb"], .file "x".toUTF8 1 0o644)]
    start := []
    clock := 2 }
  transcript := []

/-- The placement of that host. -/
def selfPlacement : Placement := ⟨SourceSets.on selfHost.disk ⟨"/p"⟩, Buckets.on ⟨"/p"⟩⟩

/-- The disk of that host once the script was copied, over itself. -/
def selfCopied : Disk := selfHost.disk.putFile ["p", "lib", "a.rb"] "x".toUTF8 0o644

theorem sourcesOn_self {d : Disk} (hd : d = selfHost.disk ∨ d = selfCopied) :
    sourcesOn d (SourceSets.on d ⟨"/p"⟩) = [⟨"/p/lib/a.rb"⟩] := by
  have hsets : SourceSets.on d ⟨"/p"⟩ = ⟨⟨"/p"⟩, some ⟨"/p/lib"⟩⟩ := by
    rcases hd with rfl | rfl <;> decide
  have hroot : d.names ⟨"/p"⟩ = .ok ["lib"] := by
    rcases hd with rfl | rfl <;> exact Disk.names_of_entries ["p"] rfl rfl rfl (by decide)
  have hlibrary : d.names ⟨"/p/lib"⟩ = .ok ["a.rb"] := by
    rcases hd with rfl | rfl <;> exact Disk.names_of_entries ["p", "lib"] rfl rfl rfl (by decide)
  have hwalk : d.leavesBelow ⟨"/p/lib"⟩ = [.leaf ⟨"/p/lib/a.rb"⟩] := by
    rw [Disk.leavesBelow_of_flat hlibrary]
    · decide
    · rcases hd with rfl | rfl <;> decide
  rw [hsets, sourcesOn, findings, rootFindings, Disk.childrenOf, hroot]
  simp only [libraryFindings, hwalk]
  rcases hd with rfl | rfl <;> decide

theorem snapshot_self {d : Disk} (hd : d = selfHost.disk ∨ d = selfCopied) :
    Snapshot.on d (SourceSets.on d ⟨"/p"⟩) = .ofList (Snapshot.timesOn d [⟨"/p/lib/a.rb"⟩]) := by
  rw [Snapshot.on, sourcesOn_self hd]

theorem fits_self : selfPlacement.Fits ⟨"/p"⟩ :=
  fits_on _ _ _

theorem disk_copyFile_self {h : Host} (hdisk : h.disk = selfHost.disk) :
    ((selfPlacement.copyFile ⟨"/p/lib/a.rb"⟩).after h).disk = selfCopied := by
  obtain ⟨d, transcript⟩ := h
  cases hdisk
  rfl

/-- The first poll of that host copies the script over itself. -/
theorem poll_self :
    (selfPlacement.poll .empty).answer selfHost =
        (selfPlacement, Snapshot.on selfHost.disk selfPlacement.sets) ∧
      ((selfPlacement.poll .empty).after selfHost).disk = selfCopied := by
  have hrefreshed : selfPlacement.refresh.answer selfHost = selfPlacement := by
    rw [refresh_eq fits_self]
    rfl
  obtain ⟨hanswer, hafter⟩ := Moment.poll_eq selfPlacement .empty selfHost
  rw [hrefreshed] at hanswer hafter
  have hchanges : (Snapshot.on selfHost.disk selfPlacement.sets).changesSince .empty =
      [⟨.new, ⟨"/p/lib/a.rb"⟩⟩] := by
    rw [show selfPlacement.sets = SourceSets.on selfHost.disk ⟨"/p"⟩ from rfl,
      snapshot_self (Or.inl rfl)]
    decide
  refine ⟨hanswer, ?_⟩
  rw [hafter, hchanges]
  simp only [apply, Act.after_bind, Act.after_pure, Moment.disk_after_applyOne, Change.source?]
  refine disk_copyFile_self ?_
  rw [Moment.disk_after_detect, Moment.disk_after_refresh]

/-- Not every poll is followed by one that finds no change and copies nothing. -/
theorem not_forall_poll_settles :
    ¬ ∀ (root storage : Path) (h : Host) (previous : Snapshot), h.disk.WellFormed →
      let m : Placement := ⟨SourceSets.on h.disk root, Buckets.on storage⟩
      let next := (m.poll previous).answer h
      let after := (m.poll previous).after h
      next.1.changesOn next.2 after = [] ∧
        ((next.1.poll next.2).after after).disk = after.disk := by
  intro hsettles
  have hnil : ((selfPlacement.poll .empty).answer selfHost).1.changesOn
      ((selfPlacement.poll .empty).answer selfHost).2
      ((selfPlacement.poll .empty).after selfHost) = [] :=
    (hsettles ⟨"/p"⟩ ⟨"/p"⟩ selfHost .empty (by decide)).1
  obtain ⟨hanswer, hdisk⟩ := poll_self
  rw [hanswer, changesOn, sets_refresh fits_self, hdisk] at hnil
  have hmodified : (Snapshot.on selfCopied (SourceSets.on selfCopied ⟨"/p"⟩)).changesSince
      (Snapshot.on selfHost.disk (SourceSets.on selfHost.disk ⟨"/p"⟩)) =
      [⟨.modified, ⟨"/p/lib/a.rb"⟩⟩] := by
    rw [snapshot_self (Or.inl rfl), snapshot_self (Or.inr rfl)]
    decide
  exact absurd (hmodified.symm.trans hnil) (by decide)

end Placement

end GemCourier.Sync
