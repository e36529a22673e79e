/-
GemCourier/Proofs/Sync/Polling.lean

Polls bring a storage to where a pass would bring it.

A watch that starts when all copies are in place has nothing that it could miss.
What it keeps up in all its runs, with edits anywhere, says of every source whose
time the latest snapshot has that its copy is in place or still to be made; and
once the edits are over, a poll ends with a snapshot that has the times of all
sources.  So all copies are in place again after it.

A pass over sources whose copies are in place writes again what is there: no
file has other bytes afterwards.

Main result: `holds_of_races`.
-/
import GemCourier.Proofs.Sync.Racing
import GemCourier.Proofs.Sync.Watching

namespace GemCourier

/-! ### The bytes of files -/

/-- The same files stand on both disks, with the same bytes. -/
def Disk.SameBytes (d d' : Disk) : Prop :=
  ∀ loc bytes, (∃ t mode, d'.node? loc = some (.file bytes t mode)) ↔
    ∃ t mode, d.node? loc = some (.file bytes t mode)

namespace Disk

variable {d d' d'' : Disk} {deeds : List Deed}

theorem SameBytes.trans (h : d.SameBytes d') (h' : d'.SameBytes d'') : d.SameBytes d'' :=
  fun loc bytes => (h' loc bytes).trans (h loc bytes)

/-- Files whose bytes are written once more keep them. -/
theorem Does.sameBytes (hdeeds : d.Does deeds d')
    (hwritten : ∀ q bytes, .wrote q bytes ∈ deeds → ∀ loc, d.Reaches q loc →
      ∃ t mode, d.node? loc = some (.file bytes t mode)) : d.SameBytes d' := by
  intro loc bytes
  rcases hdeeds.node?_eq_or loc with
    hsame | ⟨_, _, _, hnone, hfolder⟩ | ⟨q, written, t, mode, hq, hreaches, hfile⟩
  · rw [hsame]
  · simp [hnone, hfolder]
  · obtain ⟨t', mode', hbefore⟩ := hwritten q written hq loc hreaches
    simp [hfile, hbefore]

end Disk

namespace Sync

open Moment

variable {root storage p : Path} {d d' : Disk} {m : Placement} {h : Host} {w : Moment}

/-! ### A pass over copies that are in place -/

namespace Placement

/-- A copy that is in place stays so while its source and the bytes of all files do. -/
theorem Holds.of_sameBytes (hholds : m.Holds d p) (hgrows : d.Grows d') (hsame : d.SameBytes d')
    (hversion : d'.version? p = d.version? p) : m.Holds d' p := by
  obtain ⟨q, loc, bytes, t, mode, hq, hreaches, hnode, hread⟩ := hholds
  obtain ⟨t', mode', hnode'⟩ := (hsame loc bytes).2 ⟨t, mode, hnode⟩
  refine ⟨q, loc, bytes, t', mode', hq, hgrows.reaches.2 hreaches, hnode', ?_⟩
  rw [Disk.readFile_iff_version, hversion]
  exact Disk.readFile_iff_version.1 hread

/-- Copying a source whose copy is in place leaves the bytes of all files. -/
theorem sameBytes_copyFile (hholds : m.Holds h.disk p) :
    h.disk.SameBytes ((m.copyFile p).after h).disk := by
  obtain ⟨deeds, hdeeds, hserve⟩ := does_copyRead (m := m) h.disk p h
  rw [(copyFile_eq m p h).2]
  refine hdeeds.sameBytes fun q bytes hwrote loc hloc => ?_
  obtain ⟨⟨_, hmem, hq⟩, hread⟩ := hserve _ hwrote
  obtain rfl := List.mem_singleton.1 hmem
  obtain ⟨q', loc', bytes', t, mode, hq', hloc', hnode, hread'⟩ := hholds
  -- what is written is what the source holds, and so does its copy
  rw [hread q bytes rfl] at hread'
  cases hread'
  obtain rfl : q' = q := Option.some.inj (hq'.symm.trans hq)
  obtain rfl := hloc.unique hloc'
  exact ⟨t, mode, hnode⟩

theorem sameBytes_copyFiles {files : List Path} (hapart : Apart root storage h.disk)
    (hfits : m.Fits storage) (hroot : m.sets.root = root)
    (hfiles : ∀ p ∈ files, m.sets.CanList p ∧ m.Holds h.disk p) :
    h.disk.SameBytes ((m.copyFiles files).after h).disk := by
  induction files generalizing h with
  | nil => exact fun _ _ => Iff.rfl
  | cons p rest ih =>
    obtain ⟨hlist, hholds⟩ := hfiles p (by simp)
    have hsame := sameBytes_copyFile hholds
    obtain ⟨deeds, hdeeds, hserve⟩ := does_copyFile (m := m) p h
    rw [← disk_after_copyNoted] at hsame hdeeds
    rw [(copyFiles_cons m p rest h).1]
    have hwithin : ∀ deed ∈ deeds, deed.Within storage :=
      fun deed hdeed => within_of_serves hfits hlist (hserve deed hdeed)
    -- the other copies are in place as before
    refine hsame.trans (ih (hapart.of_does hdeeds hwithin) fun q hq => ?_)
    obtain ⟨hlist', hholds'⟩ := hfiles q (by simp [hq])
    refine ⟨hlist', hholds'.of_sameBytes hdeeds.grows hsame ?_⟩
    exact (hapart.aside _ _ hdeeds hwithin).2 q (hroot ▸ hlist'.listable)

/-- What a pass does stays within the storage. -/
theorem does_syncOnce_within (hapart : Apart root storage h.disk) (hfits : m.Fits storage) :
    ∃ deeds, h.disk.Does deeds (m.syncOnce.after h).disk ∧ ∀ deed ∈ deeds, deed.Within storage := by
  cases hanswer : m.syncOnce.answer h with
  | error e =>
    obtain ⟨deeds, hdeeds, hprepares⟩ := does_syncOnce_error hanswer
    exact ⟨deeds, hdeeds, fun deed hdeed => within_of_prepares hfits (hprepares deed hdeed)⟩
  | ok report =>
    obtain ⟨deeds, hdeeds, hdoes⟩ := does_syncOnce hanswer
    obtain ⟨_, hprepare, -⟩ := does_prepareBuckets m h
    refine ⟨deeds, hdeeds, fun deed hdeed => ?_⟩
    rcases hdoes deed hdeed with hprepares | hserves
    · exact within_of_prepares hfits hprepares
    · obtain ⟨s, hs, hone⟩ := hserves.exists_one
      have hlist := (mem_sourcesOn_iff (hprepare.wellFormed hapart.wellFormed) hfits.library).1 hs
      exact within_of_serves hfits hlist.1 hone

/-- A pass over sources whose copies are in place leaves the bytes of all files, and the copies in
place. -/
theorem syncOnce_of_holds (hapart : Apart root storage h.disk) (hfits : m.Fits storage)
    (hroot : m.sets.root = root) (hheld : ∀ p ∈ sourcesOn h.disk m.sets, m.Holds h.disk p) :
    h.disk.SameBytes (m.syncOnce.after h).disk ∧
      ∀ p ∈ sourcesOn h.disk m.sets, m.Holds (m.syncOnce.after h).disk p := by
  have hsame : h.disk.SameBytes (m.syncOnce.after h).disk := by
    obtain ⟨deeds, hdeeds, hprepares⟩ := does_prepareBuckets m h
    have hprepared : h.disk.SameBytes (m.prepareBuckets.after h).disk :=
      hdeeds.sameBytes fun q bytes hwrote => absurd (hprepares _ hwrote) id
    cases hanswer : m.syncOnce.answer h with
    | error e =>
      rw [(syncOnce_error hanswer).2]
      exact hprepared
    | ok report =>
      obtain ⟨mid, hmid, -, hafter⟩ := syncOnce_ok hanswer
      rw [← hmid] at hdeeds hprepared
      rw [hafter]
      have hwithin : ∀ deed ∈ deeds, deed.Within storage :=
        fun deed hdeed => within_of_prepares hfits (hprepares deed hdeed)
      have hapart' := hapart.of_does hdeeds hwithin
      refine hprepared.trans (sameBytes_copyFiles hapart' hfits hroot fun p hp => ?_)
      -- what is listed once the buckets are there was there before
      rw [listed, ← hmid, mem_sourcesOn_iff hapart'.wellFormed hfits.library] at hp
      obtain ⟨hlist, hfile⟩ := hp
      have hversion := (hapart.aside _ _ hdeeds hwithin).2 p (hroot ▸ hlist.listable)
      have hfile' : h.disk.isFile p = true := by
        rwa [Disk.isFile_iff_version, hversion, ← Disk.isFile_iff_version] at hfile
      have hp := (mem_sourcesOn_iff hapart.wellFormed hfits.library).2 ⟨hlist, hfile'⟩
      exact ⟨hlist, (hheld p hp).of_sameBytes hdeeds.grows hprepared hversion⟩
  refine ⟨hsame, fun p hp => ?_⟩
  obtain ⟨deeds, hdeeds, hwithin⟩ := does_syncOnce_within hapart hfits
  have hlist := ((mem_sourcesOn_iff hapart.wellFormed hfits.library).1 hp).1
  exact (hheld p hp).of_sameBytes hdeeds.grows hsame
    ((hapart.aside _ _ hdeeds hwithin).2 p (hroot ▸ hlist.listable))

end Placement

/-! ### The sets of a poll without edits -/

/-- No step changes whether the project has a library. -/
theorem on_next (hw : Sane root storage w) :
    SourceSets.on w.next.disk root = SourceSets.on w.disk root := by
  obtain ⟨deeds, hdeeds, hwithin⟩ := does_next hw
  rw [SourceSets.on, (hw.apart.aside _ _ hdeeds hwithin).1, ← SourceSets.on]

/-- While nothing is edited, sets that were resolved stay those of the disk. -/
theorem sets_iterate {previous : Snapshot} {n : Nat} (hw : Sane root storage w)
    (hstage : w.stage = .waiting previous) (hn : 0 < n) :
    (next^[n] w).placement.sets = SourceSets.on (next^[n] w).disk root := by
  induction n with
  | zero => exact absurd hn (Nat.lt_irrefl 0)
  | succ n ih =>
    have hsane := sane_of_runs hw (Runs.here.iterate n)
    rw [Function.iterate_succ_apply', on_next hsane]
    rcases placement_next hsane with hplacement | ⟨-, hplacement⟩
    · rcases Nat.eq_zero_or_pos n with rfl | hpos
      · rw [Function.iterate_zero_apply, next_waiting hstage, placement_placed, refresh_eq hw.fits,
          hw.root_eq, disk]
      · rw [hplacement, ih hpos]
    · rw [hplacement]

/-! ### Polls -/

/-- The moment at which a watch has taken its first snapshot. -/
def Moment.watching (m : Placement) (h : Host) : Moment where
  host := h
  placement := m
  stage := .waiting (Snapshot.on h.disk m.sets)
  failed := false
  past := []

theorem sane_watching (hapart : Apart root storage h.disk) (hfits : m.Fits storage)
    (hroot : m.sets.root = root) : Sane root storage (Moment.watching m h) where
  apart := hapart
  fits := hfits
  root_eq := hroot
  pending := by
    intro p hp
    cases hp

/-- A watch that starts when all copies are in place has them in place. -/
theorem follows_watching (hb : Sane root storage (Moment.watching m h))
    (hheld : ∀ p ∈ sourcesOn h.disk m.sets, m.Holds h.disk p) :
    Follows root storage (Moment.watching m h) (Snapshot.on h.disk m.sets)
      (Moment.watching m h) where
  known := rfl
  remembered := List.mem_cons_self
  seen := by
    intro p t hp ht
    obtain ⟨-, bytes, hversion⟩ := (hb.time?_iff hp).1 ht
    exact ⟨h.disk, List.mem_cons_self, bytes, hversion⟩
  held := by
    intro _ p bytes t hp ht hversion
    obtain ⟨hlist, -⟩ := (hb.time?_iff hp).1 ht
    have hfile := Disk.isFile_iff_version.2 ⟨bytes, t, hversion⟩
    exact Or.inr (Or.inl ((hb.holds_iff hlist).2 (hheld p (hb.mem_sources_iff.2 ⟨hlist, hfile⟩))))
  missed := fun p hp => absurd (hheld p hp.1) hp.2.2

/-- In every run of a watch that starts with a snapshot at an instant when all copies are in place,
with edits anywhere, also during scans and copies, after every poll that begins after the last
edit, if no copy failed: the sets are those of the disk, and the copy of every source is in place.
A pass would leave it so, and the bytes of all files as they are. -/
theorem holds_of_races {n : Nat} {previous current : Snapshot} (m : Placement) (h : Host)
    (hapart : Apart root storage h.disk) (hfits : m.Fits storage) (hroot : m.sets.root = root)
    (hheld : ∀ p ∈ sourcesOn h.disk m.sets, m.Holds h.disk p)
    (hraces : Races root storage (Moment.watching m h) w) (hwaits : w.stage = .waiting previous)
    (hn : 0 < n) (hpolled : (next^[n] w).stage = .waiting current)
    (hok : (next^[n] w).failed = false) :
    let after := next^[n] w
    let synced := (after.placement.syncOnce.after after.host).disk
    after.placement.sets = SourceSets.on after.disk root ∧
      (∀ p ∈ sourcesOn after.disk after.placement.sets,
        after.placement.Holds after.disk p ∧ after.placement.Holds synced p) ∧
      after.disk.SameBytes synced := by
  intro after synced
  have hb := sane_watching hapart hfits hroot
  have hw : Sane root storage w := sane_of_races hb hraces
  have hafter : Sane root storage after := sane_of_runs hw (Runs.here.iterate n)
  -- everything was in place at the start, so nothing can be missed
  have hnone : ∀ d p, ¬ Missed (Moment.watching m h) d p :=
    fun d p hmissed => hmissed.2.2 (hheld p hmissed.1)
  obtain ⟨s, hfollows⟩ := follows_of_races hnone hb hb (follows_watching hb hheld) hraces
  obtain ⟨s', hfollows'⟩ := follows_of_runs hb hw hfollows (Runs.here.iterate n)
  obtain rfl : current = s' := Option.some.inj
    ((congrArg Stage.snapshot? hpolled).symm.trans hfollows'.known)
  have htimes := (caught_iterate hw hwaits hn).times hpolled
  have hholds : ∀ p ∈ sourcesOn after.disk after.placement.sets,
      after.placement.Holds after.disk p := by
    intro p hp
    obtain ⟨hlist, hfile⟩ := hafter.mem_sources_iff.1 hp
    have hlistable := hafter.listable hlist
    obtain ⟨bytes, t, hversion⟩ := Disk.isFile_iff_version.1 hfile
    have htime := htimes p bytes t hlistable hversion
    rw [← hafter.holds_iff hlist]
    rcases hfollows'.held hok p bytes t hlistable htime hversion with
      hpending | hplaced | hmissed
    · rw [hpolled] at hpending
      cases hpending
    · exact hplaced
    · exact absurd hmissed (hnone _ p)
  obtain ⟨hsame, hsynced⟩ :=
    Placement.syncOnce_of_holds (h := after.host) hafter.apart hafter.fits hafter.root_eq hholds
  exact ⟨sets_iterate hw hwaits hn, fun p hp => ⟨hholds p hp, hsynced p hp⟩, hsame⟩

/-! ### A script that comes while the project is watched -/

theorem names_lateDisk : lateDisk.names ⟨"/p"⟩ = .ok ["a.rb"] := by
  have hlook : lateDisk.lookUp .through ⟨"/p"⟩ = .ok (["p"], .folder) := rfl
  simp only [Disk.names, hlook, Disk.namesBelow]
  simp [lateDisk, idleHost]

theorem snapshot_lateDisk : Snapshot.on lateDisk idlePlacement.sets = ⟨[(⟨"/p/a.rb"⟩, 5)]⟩ := by
  have hroot : rootFindings lateDisk idlePlacement.sets = [.leaf ⟨"/p/a.rb"⟩] := by
    simp only [rootFindings, Disk.childrenOf, idlePlacement, names_lateDisk, Except.map]
    decide
  rw [Snapshot.on, sourcesOn, findings, hroot]
  decide

/-- When the script was written, the next poll has one change to apply. -/
theorem applying_lateDisk {w : Moment} (hstage : w.stage = .waiting ⟨[]⟩)
    (hdisk : w.disk = lateDisk) (hplacement : w.placement = idlePlacement) :
    w.next.next.stage = .applying ⟨[(⟨"/p/a.rb"⟩, 5)]⟩ [⟨.new, ⟨"/p/a.rb"⟩⟩] ∧
      w.next.next.disk = lateDisk ∧ w.next.next.placement = idlePlacement ∧
      w.next.next.failed = w.failed := by
  have hrefreshed := next_waiting hstage
  have hplacement' : w.next.placement = idlePlacement := by
    have hhost : w.host.disk = lateDisk := hdisk
    rw [hrefreshed, placement_placed, hplacement, refresh_eq fits_idle, hhost]
    exact congrArg (Placement.mk · idlePlacement.buckets) (library_of_idle (Or.inr rfl))
  have hdisk' : w.next.disk = lateDisk := by
    rw [hrefreshed, disk_placed, disk_moved, disk_after_refresh]
    exact hdisk
  have hstage' : w.next.stage = .refreshed ⟨[]⟩ := by
    rw [hrefreshed, stage_placed, stage_moved]
  have hdetected := next_refreshed hstage'
  rw [hdisk', hplacement', snapshot_lateDisk] at hdetected
  rw [hdetected]
  refine ⟨?_, ?_, hplacement', ?_⟩
  · rw [stage_moved]
    exact congrArg _ (by decide)
  · rw [disk_moved, disk_after_detect]
    exact hdisk'
  · rw [failed_moved, hrefreshed, failed_placed, failed_moved]

theorem copied_lateDisk {h : Host} (hdisk : h.disk = lateDisk) :
    ((idlePlacement.copyFile ⟨"/p/a.rb"⟩).answer h).isOk = true := by
  obtain ⟨d, transcript⟩ := h
  subst hdisk
  rfl

/-- The poll copies the script. -/
theorem holds_of_races_lateDisk :
    let after := next^[4] ((Moment.watching idlePlacement idleHost).edited lateDisk)
    after.failed = false ∧ after.placement.Holds after.disk ⟨"/p/a.rb"⟩ := by
  have hpast : ∀ d ∈ (Moment.watching idlePlacement idleHost).history, d = idleHost.disk :=
    fun d hd => List.mem_singleton.1 hd
  have hraces : Races ⟨"/p"⟩ ⟨"/s"⟩ (Moment.watching idlePlacement idleHost) _ :=
    races_of_runs (.edit .here (edit_idle rfl hpast))
  have hwaits : ((Moment.watching idlePlacement idleHost).edited lateDisk).stage =
      .waiting ⟨[]⟩ := by
    show Stage.waiting (Snapshot.on idleHost.disk idlePlacement.sets) = _
    rw [Snapshot.on, sourcesOn_idle]
    rfl
  have hheld : ∀ p ∈ sourcesOn idleHost.disk idlePlacement.sets,
      idlePlacement.Holds idleHost.disk p := by
    intro p hp
    rw [sourcesOn_idle] at hp
    cases hp
  have hapart : Apart ⟨"/p"⟩ ⟨"/s"⟩ idleHost.disk := apart_of_idle (Or.inl rfl)
  have hsane := sane_of_races (sane_watching hapart fits_idle rfl) hraces
  obtain ⟨hstage, hdisk, hplacement, hunfailed⟩ := applying_lateDisk hwaits rfl rfl
  have hok : ((Moment.watching idlePlacement idleHost).edited lateDisk).failed = false := rfl
  generalize (Moment.watching idlePlacement idleHost).edited lateDisk = w at *
  intro after
  have hcopied := next_applying_cons hstage
  have hdone := next_applying_nil (w := w.next.next.next) (by rw [hcopied]; rfl)
  have hafter : after = w.next.next.next.next := rfl
  have hfailed : after.failed = false := by
    rw [hafter, hdone, failed_moved, hcopied, failed_noting, failed_moved, hunfailed, hok]
    show (!((w.next.next.placement.copyFile ⟨"/p/a.rb"⟩).answer w.next.next.host).isOk) = false
    rw [hplacement, copied_lateDisk hdisk]
    rfl
  have hpolled : after.stage = .waiting ⟨[(⟨"/p/a.rb"⟩, 5)]⟩ := by
    rw [hafter, hdone, stage_moved]
  -- the script is still listed when it was copied
  have hmem : ⟨"/p/a.rb"⟩ ∈ sourcesOn after.disk after.placement.sets := by
    have hsane' := sane_next (sane_next hsane)
    have hplacement' : after.placement = idlePlacement := by
      rw [hafter, hdone, placement_moved, hcopied, placement_noting, placement_moved, hplacement]
    have hlistable := canList_lateDisk.listable
    have hversion : after.disk.version? ⟨"/p/a.rb"⟩ = lateDisk.version? ⟨"/p/a.rb"⟩ := by
      rw [hafter, version?_next (sane_next hsane') hlistable, version?_next hsane' hlistable, hdisk]
    have hlast : Sane ⟨"/p"⟩ ⟨"/s"⟩ after := sane_next (sane_next hsane')
    rw [hlast.mem_sources_iff, hplacement', Disk.isFile_iff_version, hversion,
      ← Disk.isFile_iff_version]
    exact ⟨canList_lateDisk, by decide⟩
  obtain ⟨-, hholds, -⟩ := holds_of_races idlePlacement idleHost hapart fits_idle rfl hheld hraces
    hwaits (by decide) hpolled hfailed
  exact ⟨hfailed, (hholds _ hmem).1⟩

end Sync

end GemCourier
