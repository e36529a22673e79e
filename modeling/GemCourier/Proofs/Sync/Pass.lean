/-
GemCourier/Proofs/Sync/Pass.lean

What one pass over all sources comes to.

A pass makes sure of both buckets, lists the sources and copies them one after
the other.  If no destination is the same file as a listed source, then the
listed sources are separate in the sense of copying, for a scan lists no place
twice and places tell their sources.  The report then accounts for every listed
source, and the disk differs from what it was by the copies and by directories
on the way to them.

A pass is given up where the way to one of the buckets is blocked, so that the
bucket is no directory and none can be made there.

Main results: `apart_listed`, `syncOnce_pass`.
-/
import GemCourier.Proofs.Host.Founding
import GemCourier.Proofs.Sync.Copying
import GemCourier.Proofs.Sync.Destinations

namespace GemCourier.Sync

/-! ### Resolving sets and listing sources -/

/-- A view that sees no notes does not see what could not be read either. -/
theorem report_keeps {γ : Type} {view : Host → γ}
    (hnote : ∀ level text, (Act.note level text).Keeps view) (findings : List Finding) :
    (Finding.report findings).Keeps view := by
  induction findings with
  | nil => exact .pure ()
  | cons finding rest ih =>
    cases finding with
    | leaf p => exact ih
    | unreadable folder fault => exact .bind (hnote _ _) fun _ => ih

@[simp] theorem answer_resolve (root : Path) (h : Host) :
    (SourceSets.resolve root).answer h = SourceSets.on h.disk root := by
  by_cases hnone : (SourceSets.on h.disk root).library = none <;>
    simp [SourceSets.resolve, hnone]

@[simp] theorem disk_after_resolve (root : Path) (h : Host) :
    ((SourceSets.resolve root).after h).disk = h.disk := by
  by_cases hnone : (SourceSets.on h.disk root).library = none <;>
    simp [SourceSets.resolve, hnone]

@[simp] theorem answer_sources (sets : SourceSets) (h : Host) :
    (sources sets).answer h = sourcesOn h.disk sets := rfl

@[simp] theorem disk_after_sources (sets : SourceSets) (h : Host) :
    ((sources sets).after h).disk = h.disk :=
  report_keeps Act.Keeps.note_disk _ h

namespace Placement

variable {m : Placement} {storage : Path} {h : Host}

/-! ### The buckets -/

/-- The deed makes a directory on the way to a bucket, or a bucket. -/
def Prepares (m : Placement) : Deed → Prop
  | .made p => p.components <+: m.buckets.home.components ∨
      p.components <+: m.buckets.lib.components
  | .wrote _ _ => False

theorem does_prepareBuckets (m : Placement) : m.prepareBuckets.Does (Prepares m) := by
  refine .bind (Directory.does_ensure fun p hp => Or.inl hp) fun answer => ?_
  cases answer with
  | error e => exact .pure _
  | ok n =>
    refine .bind (Directory.does_ensure fun p hp => Or.inr hp) fun answer => ?_
    cases answer <;> exact .pure _

/-- Where the buckets cannot be made sure of, the way to one of them is blocked. -/
theorem prepareBuckets_error {e : PassError} (herror : m.prepareBuckets.answer h = .error e) :
    ∃ bucket cause, e = .destinationRoot bucket cause ∧
      (bucket = m.buckets.home ∨ bucket = m.buckets.lib) ∧
      cause.Blocks (m.prepareBuckets.after h).disk bucket.components := by
  cases hhome : (Directory.ensure m.buckets.home).answer h with
  | error cause =>
    have hblocks := Directory.ensure_error hhome
    refine ⟨m.buckets.home, cause, ?_, Or.inl rfl, ?_⟩
    · simpa [prepareBuckets, hhome] using herror.symm
    · simpa [prepareBuckets, hhome] using hblocks
  | ok n =>
    cases hlib : (Directory.ensure m.buckets.lib).answer
        ((Directory.ensure m.buckets.home).after h) with
    | error cause =>
      have hblocks := Directory.ensure_error hlib
      refine ⟨m.buckets.lib, cause, ?_, Or.inr rfl, ?_⟩
      · simpa [prepareBuckets, hhome, hlib] using herror.symm
      · simpa [prepareBuckets, hhome, hlib] using hblocks
    | ok n' => simp [prepareBuckets, hhome, hlib] at herror

/-- The sources that a pass lists: those on the disk with the buckets made sure of. -/
def listed (m : Placement) (h : Host) : List Path :=
  sourcesOn (m.prepareBuckets.after h).disk m.sets

/-- A pass fails where the buckets cannot be made sure of, and then it does nothing else. -/
theorem syncOnce_error {e : PassError} (herror : m.syncOnce.answer h = .error e) :
    m.prepareBuckets.answer h = .error e ∧
      (m.syncOnce.after h).disk = (m.prepareBuckets.after h).disk := by
  cases hprepare : m.prepareBuckets.answer h with
  | error e' =>
    obtain rfl : e' = e := by simpa [syncOnce, hprepare] using herror
    exact ⟨rfl, by simp [syncOnce, hprepare]⟩
  | ok _ => simp [syncOnce, hprepare] at herror

/-- A pass that does not fail copies the listed sources, from the disk that the buckets were
made sure of on. -/
theorem syncOnce_ok {report : PassReport} (hok : m.syncOnce.answer h = .ok report) :
    ∃ mid : Host, mid.disk = (m.prepareBuckets.after h).disk ∧
      report = (m.copyFiles (m.listed h)).answer mid ∧
      (m.syncOnce.after h).disk = ((m.copyFiles (m.listed h)).after mid).disk := by
  cases hprepare : m.prepareBuckets.answer h with
  | error e => simp [syncOnce, hprepare] at hok
  | ok _ =>
    refine ⟨(sources m.sets).after (m.prepareBuckets.after h), disk_after_sources _ _, ?_, ?_⟩
    · simpa [syncOnce, hprepare, listed] using hok.symm
    · simp [syncOnce, hprepare, listed]

theorem does_syncOnce_error {e : PassError} (herror : m.syncOnce.answer h = .error e) :
    ∃ deeds, h.disk.Does deeds (m.syncOnce.after h).disk ∧ ∀ deed ∈ deeds, Prepares m deed := by
  rw [(syncOnce_error herror).2]
  exact does_prepareBuckets m h

/-- What a pass does: it makes sure of the buckets, and serves to copy the listed sources. -/
theorem does_syncOnce {report : PassReport} (hok : m.syncOnce.answer h = .ok report) :
    ∃ deeds, h.disk.Does deeds (m.syncOnce.after h).disk ∧
      ∀ deed ∈ deeds, Prepares m deed ∨ Serves m (m.listed h) deed := by
  obtain ⟨mid, hmid, -, hafter⟩ := syncOnce_ok hok
  obtain ⟨deeds, hdeeds, hprepares⟩ := does_prepareBuckets m h
  obtain ⟨more, hmore, hserve⟩ := does_copyFiles (m := m) (m.listed h) mid
  rw [hmid, ← hafter] at hmore
  refine ⟨deeds ++ more, hdeeds.append hmore, fun deed hdeed => ?_⟩
  rcases List.mem_append.1 hdeed with hdeed | hdeed
  · exact Or.inl (hprepares deed hdeed)
  · exact Or.inr (hserve deed hdeed)

/-! ### The pass -/

/-- No two sources that a scan lists are copied to the same place. -/
theorem distinct_sourcesOn {d : Disk} (hfits : m.Fits storage) (hd : d.WellFormed)
    (hfree : d.LinkFreeBelow storage) :
    (sourcesOn d m.sets).Pairwise fun s t => ∀ q q' loc, m.destination? s = some q →
      m.destination? t = some q' → d.Reaches q loc → ¬ d.Reaches q' loc := by
  refine (pairwise_sourcesOn hd hfits.library).imp_of_mem ?_
  intro s t hs ht hdiffer q q' loc hq hq'
  obtain ⟨_, _, hsq, hsplaced, hscomponents⟩ := destination_of_mem hfits hd hs
  obtain ⟨_, _, htq, htplaced, htcomponents⟩ := destination_of_mem hfits hd ht
  rw [hq] at hsq
  rw [hq'] at htq
  cases hsq
  cases htq
  exact not_reaches_both hfree hsplaced htplaced hdiffer hscomponents htcomponents

theorem exists_readFile_of_mem {d : Disk} {p : Path} {sets : SourceSets}
    (hp : p ∈ sourcesOn d sets) : ∃ bytes, d.readFile p = .ok bytes := by
  obtain ⟨bytes, t, mode, hnode⟩ := Disk.isFile_iff.1 (isFile_of_mem hp)
  exact ⟨bytes, Disk.readFile_ok_iff.2 ⟨t, mode, hnode⟩⟩

/-- The sources that a scan lists are separate if no destination of theirs is one of them. -/
theorem separate_sourcesOn {d : Disk} (hfits : m.Fits storage) (hd : d.WellFormed)
    (hfree : d.LinkFreeBelow storage)
    (hapart : ∀ s ∈ sourcesOn d m.sets, ∀ t ∈ sourcesOn d m.sets, ∀ q loc,
      m.destination? s = some q → d.Reaches q loc → ¬ d.Reaches t loc) :
    Separate m d (sourcesOn d m.sets) where
  mapped := by
    intro s hs
    obtain ⟨q, _, hq, _⟩ := destination_of_mem hfits hd hs
    exact ⟨q, hq⟩
  readable := fun s hs => exists_readFile_of_mem hs
  apart := hapart
  distinct := distinct_sourcesOn hfits hd hfree

/-- They are so on the disk that the buckets were made sure of on, if they are on the disk
before. -/
theorem separate_listed (hfits : m.Fits storage) (hd : h.disk.WellFormed)
    (hfree : h.disk.LinkFreeBelow storage)
    (hapart : ∀ s ∈ m.listed h, ∀ t ∈ m.listed h, ∀ q loc, m.destination? s = some q →
      h.disk.Reaches q loc → ¬ h.disk.Reaches t loc) :
    Separate m (m.prepareBuckets.after h).disk (m.listed h) := by
  obtain ⟨deeds, hdeeds, -⟩ := does_prepareBuckets m h
  have hgrows := hdeeds.grows
  -- making directories makes no links, so paths lead where they led before
  refine separate_sourcesOn hfits (hdeeds.wellFormed hd) ?_ ?_
  · intro base hbase names
    rw [hgrows.links]
    exact hfree base (hgrows.reaches.1 hbase) names
  · intro s hs t ht q loc hq
    rw [hgrows.reaches, hgrows.reaches]
    exact hapart s hs t ht q loc hq

/-- Where the storage lies beside the project, with no links in either, no destination of a listed
source is the same file as a listed source. -/
theorem apart_listed (hfits : m.Fits storage) (hd : h.disk.WellFormed)
    (hroot : h.disk.LinkFreeBelow m.sets.root) (hfree : h.disk.LinkFreeBelow storage)
    (hbeside : Beside h.disk m.sets.root storage) :
    ∀ s ∈ m.listed h, ∀ t ∈ m.listed h, ∀ q loc, m.destination? s = some q →
      h.disk.Reaches q loc → ¬ h.disk.Reaches t loc := by
  obtain ⟨deeds, hdeeds, -⟩ := does_prepareBuckets m h
  have hready := hdeeds.wellFormed hd
  intro s hs t ht q loc hq hreaches
  obtain ⟨q', tail, hq', _, hcomponents⟩ := destination_of_mem hfits hready hs
  obtain ⟨_, _, _, htplaced, _⟩ := destination_of_mem hfits hready ht
  obtain rfl : q' = q := Option.some.inj (hq'.symm.trans hq)
  exact not_reaches_source hroot hfree hbeside htplaced hcomponents hreaches

/-- If no destination of a listed source is the same file as a listed source, a pass either
accounts for every listed source, copied or failed, with the copies in their places, or is
given up because the way to one of the buckets is blocked, which then is no directory.  In both
cases nothing is removed, files change only where a source has its destination, and directories
are added only on the way to buckets and to destinations. -/
theorem syncOnce_pass (root storage : Path) (h : Host) (hd : h.disk.WellFormed)
    (hfree : h.disk.LinkFreeBelow storage) :
    let m : Placement := ⟨SourceSets.on h.disk root, Buckets.on storage⟩
    let after := (m.syncOnce.after h).disk
    (∀ s ∈ m.listed h, ∀ t ∈ m.listed h, ∀ q loc, m.destination? s = some q →
      h.disk.Reaches q loc → ¬ h.disk.Reaches t loc) →
    (∀ report, m.syncOnce.answer h = .ok report →
      report.copied + report.failures.length = (m.listed h).length ∧
      (report.failures.map (·.1)).Sublist (m.listed h) ∧ (m.listed h).Nodup ∧
      (∀ s ∈ m.listed h, s ∉ report.failures.map (·.1) → ∃ q bytes, m.destination? s = some q ∧
        (m.prepareBuckets.after h).disk.readFile s = .ok bytes ∧
        after.readFile s = .ok bytes ∧ after.readFile q = .ok bytes) ∧
      h.disk.Grows after ∧
      (∀ loc, (∀ s ∈ m.listed h, ∀ q, m.destination? s = some q → ¬ h.disk.Reaches q loc) →
        ∀ bytes t mode, after.node? loc = some (.file bytes t mode) ↔
          h.disk.node? loc = some (.file bytes t mode)) ∧
      (∀ loc, h.disk.node? loc = none → after.node? loc = some .folder →
        ∃ p, h.disk.Reaches p loc ∧ (p.components <+: m.buckets.home.components ∨
          p.components <+: m.buckets.lib.components ∨ ∃ s ∈ m.listed h, ∃ q,
            m.destination? s = some q ∧ p.components <+: q.components.dropLast))) ∧
    (∀ e, m.syncOnce.answer h = .error e →
      (∃ bucket cause, e = .destinationRoot bucket cause ∧
        (bucket = m.buckets.home ∨ bucket = m.buckets.lib) ∧
        cause.Blocks after bucket.components ∧ after.isFolder bucket = false) ∧
      h.disk.Grows after ∧
      (∀ loc bytes t mode, after.node? loc = some (.file bytes t mode) ↔
        h.disk.node? loc = some (.file bytes t mode)) ∧
      (∀ loc, h.disk.node? loc = none → after.node? loc = some .folder →
        ∃ p, h.disk.Reaches p loc ∧ (p.components <+: m.buckets.home.components ∨
          p.components <+: m.buckets.lib.components))) := by
  intro m after hapart
  have hfits : m.Fits storage := fits_on h.disk root storage
  refine ⟨fun report hok => ?_, fun e herror => ?_⟩
  · have hseparate := separate_listed hfits hd hfree hapart
    obtain ⟨mid, hmid, rfl, hafter⟩ := syncOnce_ok hok
    rw [← hmid] at hseparate
    obtain ⟨deeds, hdeeds, hdoes⟩ := does_syncOnce hok
    obtain ⟨hcount, hsublist⟩ := copyFiles_counts mid hseparate.mapped
    refine ⟨hcount, hsublist, ?_, ?_, hdeeds.grows, ?_, ?_⟩
    · obtain ⟨_, hprepare, -⟩ := does_prepareBuckets m h
      refine (pairwise_sourcesOn (hprepare.wellFormed hd) hfits.library).imp ?_
      rintro s t hdiffer rfl
      exact hdiffer rfl
    · intro s hs hunfailed
      obtain ⟨q, bytes, hq, hread, hreadAfter, hheld⟩ :=
        copyFiles_held mid hseparate s hs hunfailed
      rw [hmid] at hread
      rw [← hafter] at hreadAfter hheld
      exact ⟨q, bytes, hq, hread, hreadAfter, hheld⟩
    · intro loc hother bytes t mode
      refine hdeeds.file_iff fun p b hp => ?_
      rcases hdoes _ hp with hprepares | ⟨s, hs, hq⟩
      · -- making sure of a bucket writes no file
        cases hprepares
      · exact hother s hs p hq
    · intro loc hloc hfolder
      obtain ⟨p, hp, hreaches⟩ := hdeeds.exists_made hloc hfolder
      refine ⟨p, hreaches, ?_⟩
      rcases hdoes _ hp with (hhome | hlib) | hserves
      · exact Or.inl hhome
      · exact Or.inr (Or.inl hlib)
      · exact Or.inr (Or.inr hserves)
  · obtain ⟨hprepare, hafter⟩ := syncOnce_error herror
    obtain ⟨bucket, cause, he, hbucket, hblocks⟩ := prepareBuckets_error hprepare
    rw [← hafter] at hblocks
    obtain ⟨deeds, hdeeds, hprepares⟩ := does_syncOnce_error herror
    refine ⟨⟨bucket, cause, he, hbucket, hblocks, hblocks.not_isFolder (hdeeds.wellFormed hd)⟩,
      hdeeds.grows, ?_, ?_⟩
    · intro loc bytes t mode
      exact hdeeds.file_iff fun p b hp => absurd (hprepares _ hp) id
    · intro loc hloc hfolder
      obtain ⟨p, hp, hreaches⟩ := hdeeds.exists_made hloc hfolder
      exact ⟨p, hreaches, hprepares _ hp⟩

/-- A host with two scripts, and a directory in the place of the copy of the first one. -/
def blockedHost : Host where
  disk := {
    nodes := [(["p"], .folder), (["p", "a.rb"], .file "x".toUTF8 1 0o644),
      (["p", "b.rb"], .file "y".toUTF8 1 0o644), (["s"], .folder), (["s", "lib"], .folder),
      (["s", "home"], .folder), (["s", "home", "a.rb"], .folder)]
    start := []
    clock := 2 }
  transcript := []

/-- The placement of the blocked host. -/
def blockedPlacement : Placement := ⟨⟨⟨"/p"⟩, none⟩, Buckets.on ⟨"/s"⟩⟩

/-- The disk of that host once the second script was copied. -/
def copiedDisk : Disk := blockedHost.disk.putFile ["s", "home", "b.rb"] "y".toUTF8 0o644

theorem findings_blocked {d : Disk} (hd : d = blockedHost.disk ∨ d = copiedDisk) :
    findings d blockedPlacement.sets = [.leaf ⟨"/p/a.rb"⟩, .leaf ⟨"/p/b.rb"⟩] := by
  have hnames : d.names ⟨"/p"⟩ = .ok ["a.rb", "b.rb"] := by
    rcases hd with rfl | rfl <;> exact Disk.names_of_entries ["p"] rfl rfl rfl (by decide)
  have hroot : rootFindings d blockedPlacement.sets = [.leaf ⟨"/p/a.rb"⟩, .leaf ⟨"/p/b.rb"⟩] := by
    simp only [rootFindings, Disk.childrenOf, blockedPlacement, hnames, Except.map]
    rcases hd with rfl | rfl <;> decide
  rw [findings, hroot]
  rfl

theorem syncOnce_blocked :
    blockedPlacement.syncOnce.answer blockedHost =
        .ok ⟨1, [(⟨"/p/a.rb"⟩, .write ⟨"/s/home/a.rb"⟩ .isDirectory)]⟩ ∧
      (blockedPlacement.syncOnce.after blockedHost).disk = copiedDisk := by
  have hprepare : blockedPlacement.prepareBuckets.answer blockedHost = .ok () := by decide +kernel
  have hpassed : blockedPlacement.prepareBuckets.after blockedHost = blockedHost := rfl
  have hsources : (sources blockedPlacement.sets).answer blockedHost =
        [⟨"/p/a.rb"⟩, ⟨"/p/b.rb"⟩] ∧
      (sources blockedPlacement.sets).after blockedHost = blockedHost := by
    simp [sources, findings_blocked (Or.inl rfl), Finding.report, sourcesOn, Finding.leaf?]
  let pass := blockedPlacement.copyFiles [⟨"/p/a.rb"⟩, ⟨"/p/b.rb"⟩]
  have hanswer : pass.answer blockedHost =
      ⟨1, [(⟨"/p/a.rb"⟩, .write ⟨"/s/home/a.rb"⟩ .isDirectory)]⟩ := by decide +kernel
  have hdisk : (pass.after blockedHost).disk = copiedDisk := by
    have hnodes : (pass.after blockedHost).disk.nodes = copiedDisk.nodes := by decide +kernel
    have hstart : (pass.after blockedHost).disk.start = copiedDisk.start := by decide +kernel
    have hclock : (pass.after blockedHost).disk.clock = copiedDisk.clock := by decide +kernel
    generalize (pass.after blockedHost).disk = d at hnodes hstart hclock
    generalize copiedDisk = d' at hnodes hstart hclock
    cases d
    cases d'
    congr
  constructor
  · simpa [syncOnce, hprepare, hpassed, hsources] using hanswer
  · simpa [syncOnce, hprepare, hpassed, hsources] using hdisk

theorem listed_blocked : blockedPlacement.listed blockedHost = [⟨"/p/a.rb"⟩, ⟨"/p/b.rb"⟩] := by
  have hpassed : blockedPlacement.prepareBuckets.after blockedHost = blockedHost := rfl
  rw [listed, hpassed, sourcesOn, findings_blocked (Or.inl rfl)]
  rfl

/-- The same host with a file in the place of a bucket. -/
def bucketlessHost : Host :=
  { blockedHost with disk := blockedHost.disk.put ["s", "lib"] (.file "n".toUTF8 1 0o644) }

/-- On a host without links, a storage beside its project is apart from the sources. -/
theorem apart_tops {h : Host} (hd : h.disk.WellFormed) (hlink : ∀ loc, h.disk.link? loc = none)
    (hstart : h.disk.start = []) :
    let m : Placement := ⟨SourceSets.on h.disk ⟨"/p"⟩, Buckets.on ⟨"/s"⟩⟩
    ∀ s ∈ m.listed h, ∀ t ∈ m.listed h, ∀ q loc, m.destination? s = some q →
      h.disk.Reaches q loc → ¬ h.disk.Reaches t loc := by
  have hbeside : Beside h.disk ⟨"/p"⟩ ⟨"/s"⟩ := by
    intro base base' hbase hbase'
    rw [(Disk.reaches_iff_landing hlink).1 hbase, (Disk.reaches_iff_landing hlink).1 hbase',
      hstart]
    decide
  exact apart_listed (fits_on _ _ _) hd (fun _ _ _ => hlink _) (fun _ _ _ => hlink _) hbeside

/-- One script is copied and the other one reported, and both are left as they are; where a file is
in the place of a bucket, the pass is given up. -/
theorem syncOnce_pass_blocked :
    (let m : Placement := ⟨SourceSets.on blockedHost.disk ⟨"/p"⟩, Buckets.on ⟨"/s"⟩⟩
      let after := (m.syncOnce.after blockedHost).disk
      m.syncOnce.answer blockedHost =
          .ok ⟨1, [(⟨"/p/a.rb"⟩, .write ⟨"/s/home/a.rb"⟩ .isDirectory)]⟩ ∧
        (m.listed blockedHost).length = 2 ∧
        after.readFile ⟨"/s/home/b.rb"⟩ = .ok "y".toUTF8 ∧
        after.node? ["p", "a.rb"] = some (.file "x".toUTF8 1 0o644)) ∧
      let m : Placement := ⟨SourceSets.on bucketlessHost.disk ⟨"/p"⟩, Buckets.on ⟨"/s"⟩⟩
      m.syncOnce.answer bucketlessHost =
          .error (.destinationRoot ⟨"/s/lib"⟩ (.notDirectory ⟨"/s/lib"⟩)) ∧
        (m.syncOnce.after bucketlessHost).disk.isFolder ⟨"/s/lib"⟩ = false := by
  constructor
  · intro m after
    have hm : m = blockedPlacement := by decide +kernel
    have hlink : ∀ loc, blockedHost.disk.link? loc = none :=
      Disk.link?_eq_none (by simp [blockedHost])
    have hapart := apart_tops (by decide) hlink rfl
    have hanswer : m.syncOnce.answer blockedHost =
        .ok ⟨1, [(⟨"/p/a.rb"⟩, .write ⟨"/s/home/a.rb"⟩ .isDirectory)]⟩ := hm ▸ syncOnce_blocked.1
    have hlisted : m.listed blockedHost = [⟨"/p/a.rb"⟩, ⟨"/p/b.rb"⟩] := hm ▸ listed_blocked
    obtain ⟨hcount, -, -, hheld, -, hkept, -⟩ := (syncOnce_pass ⟨"/p"⟩ ⟨"/s"⟩ blockedHost
      (by decide) (fun _ _ _ => hlink _) hapart).1 _ hanswer
    refine ⟨hanswer, hcount.symm, ?_, ?_⟩
    · obtain ⟨q, bytes, hq, hread, -, hcopy⟩ :=
        hheld ⟨"/p/b.rb"⟩ (by rw [hlisted]; simp) (by decide)
      have hdestination : m.destination? ⟨"/p/b.rb"⟩ = some ⟨"/s/home/b.rb"⟩ := by decide +kernel
      have hsource : (m.prepareBuckets.after blockedHost).disk.readFile ⟨"/p/b.rb"⟩ =
          .ok "y".toUTF8 := by decide +kernel
      obtain rfl := Option.some.inj (hq.symm.trans hdestination)
      obtain rfl := Except.ok.inj (hread.symm.trans hsource)
      exact hcopy
    · refine (hkept ["p", "a.rb"] (fun s hs q hq hreaches => ?_) _ _ _).2 rfl
      refine hapart s hs ⟨"/p/a.rb"⟩ (by rw [hlisted]; simp) q _ hq hreaches ?_
      exact (Disk.reaches_iff_landing hlink).2 (by decide)
  · intro m
    have hlink : ∀ loc, bucketlessHost.disk.link? loc = none :=
      Disk.link?_eq_none (by simp [bucketlessHost, blockedHost, Disk.put])
    have hanswer : m.syncOnce.answer bucketlessHost =
        .error (.destinationRoot ⟨"/s/lib"⟩ (.notDirectory ⟨"/s/lib"⟩)) := by
      have hprepare : m.prepareBuckets.answer bucketlessHost =
          .error (.destinationRoot ⟨"/s/lib"⟩ (.notDirectory ⟨"/s/lib"⟩)) := by decide +kernel
      simp [syncOnce, hprepare]
    obtain ⟨⟨bucket, cause, he, -, -, hmissing⟩, -⟩ := (syncOnce_pass ⟨"/p"⟩ ⟨"/s"⟩ bucketlessHost
      (by decide) (fun _ _ _ => hlink _) (apart_tops (by decide) hlink rfl)).2 _ hanswer
    cases he
    exact ⟨hanswer, hmissing⟩

end Placement

end GemCourier.Sync
