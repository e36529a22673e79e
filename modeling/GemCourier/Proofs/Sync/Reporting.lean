/-
GemCourier/Proofs/Sync/Reporting.lean

Nothing that a scan lists is passed over in silence.

A scan tells sources by the directory it finds them in, a placement by the
components of their paths.  The two agree whatever the disk looks like, and go on
agreeing when the disk changes and the sets are resolved again, for these are
always the sets of the project, with its library or without.  So whatever a scan
lists has a destination, in the bucket of the scan that listed it, and no two of
them have the same.

The case of a copy that has no destination, of which nothing is said, then never
comes up: a pass counts every listed source as copied or as failed, and a poll
prints for every change what came of it.

Main results: `announced_poll`, `scan_agrees`.
-/
import GemCourier.Proofs.Sync.Edits
import GemCourier.Proofs.Sync.Mapping

namespace GemCourier

@[simp] theorem Act.printed_after_print (line : Console.Line) (h : Host) :
    ((Act.print line).after h).printed = h.printed ++ [line] := by
  simp [Act.print, Host.printed, Host.record, Event.line?]

@[simp] theorem Act.printed_after_note (level : Level) (text : String) (h : Host) :
    ((Act.note level text).after h).printed = h.printed :=
  Act.aloof_printed.note level text h

namespace Sync

variable {d : Disk} {m : Placement} {storage p q : Path} {h : Host}

/-! ### Sets resolved again -/

/-- `m.Refreshed m'`: the placement `m'` is what `m` is after its sets were resolved again, any
number of times and each time on another host. -/
inductive Placement.Refreshed (m : Placement) : Placement → Prop
  | here : Refreshed m m
  | again {m' : Placement} (h : Host) : Refreshed m m' → Refreshed m (m'.refresh.answer h)

theorem Placement.fits_refresh (hfits : m.Fits storage) (h : Host) :
    (m.refresh.answer h).Fits storage := by
  rw [refresh_eq hfits, hfits.buckets]
  exact fits_on h.disk m.sets.root storage

theorem Placement.Refreshed.fits {m' : Placement} (hfits : m.Fits storage)
    (hrefreshed : m.Refreshed m') : m'.Fits storage := by
  induction hrefreshed with
  | here => exact hfits
  | again h _ ih => exact fits_refresh ih h

/-! ### Destinations of what is listed -/

theorem destination_of_rootFinding (hfits : m.Fits storage) (hd : d.WellFormed)
    (hp : .leaf p ∈ rootFindings d m.sets) :
    ∃ q n, m.destination? p = some q ∧ q.components = m.buckets.home.components ++ [.name n] := by
  obtain ⟨n, hne, hcomponents⟩ := components_of_rootFinding hd hp
  have hplaced : Placed m.sets.root p ["home", n] := .home n hne hcomponents rfl
  obtain ⟨q, hq, hq'⟩ := hplaced.destination hfits (by simp)
  refine ⟨q, n, hq, ?_⟩
  rw [hq', hfits.buckets, components_home]
  simp

theorem destination_of_libraryFinding {library : Path} (hfits : m.Fits storage) (hd : d.WellFormed)
    (hsome : m.sets.library = some library) (hp : .leaf p ∈ libraryFindings d library) :
    ∃ q, ∃ names : List String, m.destination? p = some q ∧ names ≠ [] ∧
      q.components = m.buckets.lib.components ++ names.map .name := by
  obtain rfl := hfits.library library hsome
  obtain ⟨names, hne, hcomponents⟩ := components_of_libraryFinding hd hp
  have hplaced : Placed m.sets.root p ("lib" :: names) := .library names hne hcomponents rfl
  obtain ⟨q, hq, hq'⟩ := hplaced.destination hfits fun _ _ => hsome
  refine ⟨q, names, hq, hne, ?_⟩
  rw [hq', hfits.buckets, components_lib]
  simp

/-- No two listed paths have the same destination. -/
theorem pairwise_destinations (hfits : m.Fits storage) (hd : d.WellFormed) :
    (sourcesOn d m.sets).Pairwise fun p p' => ∀ q q', m.destination? p = some q →
      m.destination? p' = some q' → q.components ≠ q'.components := by
  refine (pairwise_sourcesOn hd hfits.library).imp fun hdiffer q q' hq hq' hsame => hdiffer ?_
  exact Placement.components_eq_of_destination? hfits.buckets hq hq' hsame

/-! ### Lines for changes -/

/-- The lines that are printed for a change: for a new or modified file its copy and what kind of
change it was, or that its copy failed, and for a deleted one that it is. -/
inductive Announced (m : Placement) (c : Change) : List Console.Line → Prop
  | copied (q : Path) (h : Host) : c.source? = some c.path →
      (m.copyFile c.path).answer h = .ok (some q) →
      Announced m c [.copied c.path.text q.text, .tagged c.kind.tag c.kind.colour c.path.text]
  | failed (e : CopyError) (h : Host) : c.source? = some c.path →
      (m.copyFile c.path).answer h = .error e →
      Announced m c [.tagged "FAILED" .red (e.message ((m.copyFile c.path).after h).disk)]
  | deleted : c.kind = .deleted →
      Announced m c [.tagged c.kind.tag c.kind.colour s!"{c.path} (manual cleanup may be needed)"]

/-- A view that sees no notes sees neither that sets are resolved nor that snapshots are taken. -/
theorem refresh_keeps {γ : Type} {view : Host → γ}
    (hnote : ∀ level text, (Act.note level text).Keeps view) (m : Placement) :
    m.refresh.Keeps view := by
  refine .bind (.bind .disk fun d => ?_) fun sets => ?_
  · dsimp only
    split
    · exact .bind (hnote _ _) fun _ => .pure _
    · exact .pure _
  · split
    · exact .pure _
    · exact .bind (hnote _ _) fun _ => .pure _

theorem detect_keeps {γ : Type} {view : Host → γ}
    (hnote : ∀ level text, (Act.note level text).Keeps view) (m : Placement) (previous : Snapshot) :
    (m.detect previous).Keeps view := by
  refine .bind (.bind (.bind .disk fun d => ?_) fun files => .bind .disk fun d => ?_) fun s => ?_
  · exact .bind (report_keeps hnote _) fun _ => .pure _
  · exact .bind (Moment.reportLeftOut_keeps hnote _ _) fun _ => .pure _
  · dsimp only
    split
    · exact .bind (hnote _ _) fun _ => .pure _
    · exact .pure _

namespace Placement

/-- A copy is printed where it is made, and a failed one is not. -/
theorem printed_after_copyFile (hq : m.destination? p = some q) (h : Host) :
    (m.copyFile p).answer h = .ok (some q) ∧
      ((m.copyFile p).after h).printed = h.printed ++ [.copied p.text q.text] ∨
    ∃ e, (m.copyFile p).answer h = .error e ∧ ((m.copyFile p).after h).printed = h.printed := by
  cases hread : h.disk.readFile p with
  | error fault => exact Or.inr ⟨.read p fault, by simp [copyFile, hq, hread]⟩
  | ok bytes =>
    have hensured : ((Directory.ensureParent q).after h).printed = h.printed :=
      Directory.ensureParent_keeps Act.aloof_printed q h
    cases hparent : (Directory.ensureParent q).answer h with
    | error e =>
      exact Or.inr ⟨.prepareDirectory q e,
        by simp [copyFile, hq, hread, store, hparent, Except.map],
        by simpa [copyFile, hq, hread, store, hparent] using hensured⟩
    | ok _ =>
      have hwritten := Act.aloof_printed.change (·.writeFile q bytes)
        ((Directory.ensureParent q).after h)
      cases hwrite : (Act.change (·.writeFile q bytes)).answer
          ((Directory.ensureParent q).after h) with
      | error fault =>
        exact Or.inr ⟨.write q fault,
          by simp [copyFile, hq, hread, store, hparent, hwrite, Except.map],
          by simp [copyFile, hq, hread, store, hparent, hwrite, hwritten, hensured]⟩
      | ok _ =>
        exact Or.inl ⟨by simp [copyFile, hq, hread, store, hparent, hwrite, Except.map],
          by simp [copyFile, hq, hread, store, hparent, hwrite, hwritten, hensured]⟩

/-- A change that asks for a copy is applied by making it. -/
theorem after_applyOne_of_asked {c : Change} (hasked : c.kind ≠ .deleted) :
    (m.applyOne c).after h = (m.applyUpsert c).after h := by
  cases hkind : c.kind with
  | new => simp [applyOne, hkind]
  | modified => simp [applyOne, hkind]
  | deleted => exact absurd hkind hasked

theorem announced_applyOne {c : Change}
    (hc : ∀ p, c.source? = some p → ∃ q, m.destination? p = some q) (h : Host) :
    ∃ lines, Announced m c lines ∧ ((m.applyOne c).after h).printed = h.printed ++ lines := by
  by_cases hdeleted : c.kind = .deleted
  · refine ⟨_, .deleted hdeleted, ?_⟩
    simp [applyOne, hdeleted]
  · have hsource : c.source? = some c.path := if_neg hdeleted
    obtain ⟨q, hq⟩ := hc c.path hsource
    rw [after_applyOne_of_asked hdeleted]
    rcases printed_after_copyFile hq h with ⟨hcopied, hprinted⟩ | ⟨e, hfailed, hprinted⟩
    · refine ⟨_, .copied q h hsource hcopied, ?_⟩
      simp [applyUpsert, hcopied, hprinted]
    · refine ⟨_, .failed e h hsource hfailed, ?_⟩
      simp [applyUpsert, hfailed, hprinted]

theorem announced_apply {changes : List Change}
    (hchanges : ∀ c ∈ changes, ∀ p, c.source? = some p → ∃ q, m.destination? p = some q)
    (h : Host) :
    ∃ lines, List.Forall₂ (Announced m) changes lines ∧
      ((m.apply changes).after h).printed = h.printed ++ lines.flatten := by
  induction changes generalizing h with
  | nil => exact ⟨[], .nil, by simp [apply]⟩
  | cons c rest ih =>
    obtain ⟨here, hhere, hprinted⟩ := announced_applyOne (hchanges c (by simp)) h
    obtain ⟨lines, hlines, hrest⟩ :=
      ih (fun c hc => hchanges c (by simp [hc])) ((m.applyOne c).after h)
    refine ⟨here :: lines, .cons hhere hlines, ?_⟩
    simp [apply, hrest, hprinted]

/-- Every change between a snapshot of a project and an older one is of a file that has a
destination, if it asks for a copy. -/
theorem destination_of_changesSince (hfits : m.Fits storage) (hd : d.WellFormed)
    (previous : Snapshot) :
    ∀ c ∈ (Snapshot.on d m.sets).changesSince previous, ∀ p, c.source? = some p →
      ∃ q, m.destination? p = some q := by
  intro c hc p hp
  have hmem : p ∈ ((Snapshot.on d m.sets).changesSince previous).filterMap Change.source? :=
    List.mem_filterMap.2 ⟨c, hc, hp⟩
  obtain ⟨t, hentry, -⟩ := mem_changesSince.1 hmem
  obtain ⟨hlist, -⟩ := (Snapshot.mem_entries_on hd hfits.library).1 hentry
  obtain ⟨q, _, hq, -⟩ := destination_of_canList hfits hlist
  exact ⟨q, hq⟩

/-- A poll prints what came of every change it sees, in order. -/
theorem announced_poll (hfits : m.Fits storage) (hd : h.disk.WellFormed) (previous : Snapshot) :
    let refreshed := m.refresh.answer h
    ∃ lines, List.Forall₂ (Announced refreshed)
        ((Snapshot.on h.disk refreshed.sets).changesSince previous) lines ∧
      ((m.poll previous).after h).printed = h.printed ++ lines.flatten := by
  intro refreshed
  have hrefreshed : refreshed.Fits storage := fits_refresh hfits h
  obtain ⟨-, hafter⟩ := Moment.poll_eq m previous h
  obtain ⟨lines, hlines, hprinted⟩ := announced_apply
    (destination_of_changesSince hrefreshed hd previous)
    ((refreshed.detect previous).after (m.refresh.after h))
  refine ⟨lines, hlines, ?_⟩
  -- resolving the sets and taking the snapshot print nothing
  rw [hafter, hprinted, detect_keeps Act.aloof_printed.note refreshed previous,
    refresh_keeps Act.aloof_printed.note m]

/-- A listed source has the time that the older snapshot has, or a change asks for its copy. -/
theorem exists_change_of_mem {d : Disk} (hfits : m.Fits storage) (hd : d.WellFormed)
    (previous : Snapshot) (hp : p ∈ sourcesOn d m.sets) :
    (∃ t, d.modified p = .ok t ∧ previous.time? p = some t) ∨
      ∃ c ∈ (Snapshot.on d m.sets).changesSince previous, c.source? = some p := by
  obtain ⟨hlist, hfile⟩ := (mem_sourcesOn_iff hd hfits.library).1 hp
  obtain ⟨bytes, t, hversion⟩ := Disk.isFile_iff_version.1 hfile
  by_cases hknown : previous.time? p = some t
  · exact Or.inl ⟨t, (Disk.modified_of_isFile hfile).2 ⟨bytes, hversion⟩, hknown⟩
  · have hentry := (Snapshot.mem_entries_on hd hfits.library).2 ⟨hlist, bytes, hversion⟩
    exact Or.inr (List.mem_filterMap.1 (mem_changesSince.2 ⟨t, hentry, hknown⟩))

/-- The copy of a listed source is never passed over for want of a destination. -/
theorem copyFile_ne_none {d : Disk} (hfits : m.Fits storage) (hd : d.WellFormed)
    (hp : p ∈ sourcesOn d m.sets) (h : Host) : (m.copyFile p).answer h ≠ .ok none := by
  obtain ⟨q, _, hq, -⟩ := destination_of_mem hfits hd hp
  rcases copyFile_answers (h := h) hq with hcopied | ⟨e, hfailed⟩
  · simp [hcopied]
  · simp [hfailed]

end Placement

/-- Scans of a project and the placement of its sets agree, on every disk and after the sets were
resolved again on any others: what the scan of the root lists goes into the `home` bucket, what
the scan of the library lists goes below the `lib` bucket, different sources have different
destinations, and no copy of one is passed over.  So a pass counts each source that it lists as
copied or failed; and a poll copies each source whose time is not the one it was, and prints for
every change that it was copied, failed or deleted. -/
theorem scan_agrees (root storage : Path) (h : Host) (m : Placement)
    (hm : Placement.Refreshed ⟨SourceSets.on h.disk root, Buckets.on storage⟩ m) :
    (∀ d : Disk, d.WellFormed →
      (∀ p, .leaf p ∈ rootFindings d m.sets → ∃ q n, m.destination? p = some q ∧
        q.components = m.buckets.home.components ++ [.name n]) ∧
      (∀ library, m.sets.library = some library → ∀ p, .leaf p ∈ libraryFindings d library →
        ∃ q, ∃ names : List String, m.destination? p = some q ∧ names ≠ [] ∧
          q.components = m.buckets.lib.components ++ names.map .name) ∧
      ((sourcesOn d m.sets).Pairwise fun p p' => ∀ q q', m.destination? p = some q →
        m.destination? p' = some q' → q.components ≠ q'.components) ∧
      ∀ p ∈ sourcesOn d m.sets, ∀ h', (m.copyFile p).answer h' ≠ .ok none) ∧
    ∀ h' : Host, h'.disk.WellFormed →
      (∀ report, m.syncOnce.answer h' = .ok report →
        report.copied + report.failures.length = (m.listed h').length ∧
        (report.failures.map (·.1)).Sublist (m.listed h')) ∧
      ∀ previous : Snapshot,
        let refreshed := m.refresh.answer h'
        let changes := (Snapshot.on h'.disk refreshed.sets).changesSince previous
        (∀ p ∈ sourcesOn h'.disk refreshed.sets,
          (∃ t, h'.disk.modified p = .ok t ∧ previous.time? p = some t) ∨
            ∃ c ∈ changes, c.source? = some p) ∧
        ∃ lines, List.Forall₂ (Announced refreshed) changes lines ∧
          ((m.poll previous).after h').printed = h'.printed ++ lines.flatten := by
  have hfits : m.Fits storage := hm.fits (fits_on h.disk root storage)
  constructor
  · intro d hd
    refine ⟨?_, ?_, pairwise_destinations hfits hd, ?_⟩
    · intro p hp
      exact destination_of_rootFinding hfits hd hp
    · intro library hsome p hp
      exact destination_of_libraryFinding hfits hd hsome hp
    · intro p hp h'
      exact Placement.copyFile_ne_none hfits hd hp h'
  · intro h' hd
    constructor
    · intro report hok
      obtain ⟨mid, -, rfl, -⟩ := Placement.syncOnce_ok hok
      obtain ⟨_, hprepare, -⟩ := Placement.does_prepareBuckets m h'
      -- the sources are listed once the buckets are there
      refine Placement.copyFiles_counts mid fun s hs => ?_
      obtain ⟨q, _, hq, -⟩ := destination_of_mem hfits (hprepare.wellFormed hd) hs
      exact ⟨q, hq⟩
    · intro previous
      refine ⟨?_, Placement.announced_poll hfits hd previous⟩
      intro p hp
      exact Placement.exists_change_of_mem (Placement.fits_refresh hfits h') hd previous hp

/-- A host with a project of one script, and an empty storage beside it. -/
def Placement.smallHost : Host where
  disk := {
    nodes := [(["p"], .folder), (["p", "a.rb"], .file "x".toUTF8 1 0o644), (["s"], .folder)]
    start := []
    clock := 2 }
  transcript := []

/-- A host with a project whose library is a link to a directory elsewhere, and a storage. -/
def linkedHost : Host where
  disk := {
    nodes := [(["p"], .folder), (["p", "a.rb"], .file "x".toUTF8 1 0o644),
      (["p", "lib"], .link "/x"), (["x"], .folder), (["x", "b.mrb"], .file "y".toUTF8 2 0o644),
      (["s"], .folder)]
    start := []
    clock := 3 }
  transcript := []

/-- A library that comes while the project is watched is scanned, also through a link. -/
theorem scan_agrees_linkedHost :
    let m := Placement.refresh ⟨SourceSets.on Placement.smallHost.disk ⟨"/p"⟩, Buckets.on ⟨"/s"⟩⟩
      |>.answer linkedHost
    m.sets.library = some ⟨"/p/lib"⟩ ∧ ⟨"/p/lib/b.mrb"⟩ ∈ sourcesOn linkedHost.disk m.sets ∧
      ∀ h', (m.copyFile ⟨"/p/lib/b.mrb"⟩).answer h' ≠ .ok none := by
  intro m
  have hd : linkedHost.disk.WellFormed := by decide
  have hsets : m.sets = ⟨⟨"/p"⟩, some ⟨"/p/lib"⟩⟩ := by decide
  have hlibrary : ∀ l, m.sets.library = some l → l = SourceSets.candidate m.sets.root := by
    rw [hsets]
    rintro _ ⟨⟩
    decide
  have hlist : m.sets.CanList ⟨"/p/lib/b.mrb"⟩ := by
    rw [hsets]
    exact Or.inr ⟨⟨["b.mrb"], by decide, by decide, by decide, by decide⟩, by decide⟩
  have hmem : ⟨"/p/lib/b.mrb"⟩ ∈ sourcesOn linkedHost.disk m.sets :=
    (mem_sourcesOn_iff hd hlibrary).2 ⟨hlist, by decide⟩
  refine ⟨by rw [hsets], hmem, ?_⟩
  exact ((scan_agrees ⟨"/p"⟩ ⟨"/s"⟩ Placement.smallHost m (.again linkedHost .here)).1 _ hd).2.2.2
    _ hmem

end Sync

end GemCourier
