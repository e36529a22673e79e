/-
GemCourier/Proofs/Sync/Watching.lean

What a watched sync comes to.

While nothing is edited, a poll resolves the sets of the disk that there is and
records the time of every source, so that at its end the latest snapshot has all
of them.  With what the watch keeps up along every run, the copies that are not
in place are then exactly those of the versions that the first snapshot recorded
too early.  A pass that nothing is edited in leaves no such version.

A project that gets its first script after the pass has listed its sources, and
before the first snapshot is taken, shows that there are such versions.

Main result: `holds_iff_not_missed`.
-/
import GemCourier.Proofs.Sync.Beside
import GemCourier.Proofs.Sync.Following

namespace GemCourier.Sync

open Moment

variable {root storage p : Path} {b w : Moment}

/-! ### A poll without edits -/

/-- What holds of the moments of a poll during which nothing is edited: the sets are those of the
disk, and after that the latest snapshot has the time of every source. -/
inductive Caught (root : Path) (w : Moment) : Prop
  | refreshed (previous : Snapshot) : w.stage = .refreshed previous →
      w.placement.sets = SourceSets.on w.disk root → Caught root w
  | recorded (s : Snapshot) : (w.stage = .waiting s ∨ ∃ rest, w.stage = .applying s rest) →
      (∀ p bytes t, Listable root p → w.disk.version? p = some (bytes, t) → s.time? p = some t) →
      Caught root w

theorem caught_refreshed {previous : Snapshot} (hw : Sane root storage w)
    (hstage : w.stage = .waiting previous) : Caught root w.next := by
  have hdisk : w.next.disk = w.disk := disk_next_of_source? (by rw [hstage]; rfl) (by simp [hstage])
  refine .refreshed previous (by simp [next_waiting hstage]) ?_
  rw [hdisk, next_waiting hstage, placement_placed, refresh_eq hw.fits, hw.root_eq, disk]

theorem caught_next (hw : Sane root storage w) (h : Caught root w) : Caught root w.next := by
  rcases h with ⟨previous, hstage, hsets⟩ | ⟨s, hwaiting | ⟨rest, hstage⟩, htimes⟩
  · refine .recorded (Snapshot.on w.disk w.placement.sets)
      (Or.inr ⟨_, by rw [next_refreshed hstage, stage_moved]⟩) ?_
    intro p bytes t hp hversion
    rw [version?_next hw hp] at hversion
    have hfile := Disk.isFile_iff_version.2 ⟨bytes, t, hversion⟩
    rw [hw.time?_iff hp, hsets]
    exact ⟨canList_on hw.apart.wellFormed hp hfile, bytes, hversion⟩
  · exact caught_refreshed hw hwaiting
  · -- applying a change leaves the snapshot, and the sources too
    refine .recorded s ?_ fun p bytes t hp hversion => ?_
    · cases rest with
      | nil => exact Or.inl (by simp [next_applying_nil hstage])
      | cons c rest => exact Or.inr ⟨rest, by simp [next_applying_cons hstage]⟩
    · rw [version?_next hw hp] at hversion
      exact htimes p bytes t hp hversion

/-- At the end of any number of polls without edits, the latest snapshot has the time of every
source. -/
theorem caught_iterate {previous : Snapshot} {n : Nat} (hw : Sane root storage w)
    (hstage : w.stage = .waiting previous) (hn : 0 < n) : Caught root (next^[n] w) := by
  induction n with
  | zero => exact absurd hn (Nat.lt_irrefl 0)
  | succ n ih =>
    rw [Function.iterate_succ_apply']
    rcases Nat.eq_zero_or_pos n with rfl | hpos
    · exact caught_refreshed hw hstage
    · exact caught_next (sane_of_runs hw (Runs.here.iterate n)) (ih hpos)

/-- Between two polls the snapshot has the time of every source. -/
theorem Caught.times {s : Snapshot} (h : Caught root w) (hstage : w.stage = .waiting s) :
    ∀ p bytes t, Listable root p → w.disk.version? p = some (bytes, t) → s.time? p = some t := by
  rcases h with ⟨_, hrefreshed, _⟩ | ⟨s', hwaiting | ⟨_, happlying⟩, htimes⟩
  · rw [hstage] at hrefreshed
    cases hrefreshed
  · rw [hstage] at hwaiting
    cases hwaiting
    exact htimes
  · rw [hstage] at happlying
    cases happlying

/-- A poll after which nothing has changed since the latest snapshot leaves everything as it is. -/
theorem poll_unchanged (hw : Sane root storage w)
    (hsets : w.placement.sets = SourceSets.on w.disk root)
    (hstage : w.stage = .waiting (Snapshot.on w.disk w.placement.sets)) :
    (next^[3] w).stage = w.stage ∧ (next^[3] w).disk = w.disk ∧
      (next^[3] w).placement = w.placement ∧ (next^[3] w).failed = w.failed := by
  have hplacement : w.next.placement = w.placement := by
    rw [next_waiting hstage, placement_placed, refresh_eq hw.fits, hw.root_eq]
    exact congrArg (Placement.mk · w.placement.buckets) hsets.symm
  have hdisk : w.next.disk = w.disk := disk_next_of_source? (by rw [hstage]; rfl) (by simp [hstage])
  have hstage' : w.next.stage = .refreshed (Snapshot.on w.disk w.placement.sets) := by
    simp [next_waiting hstage]
  have hdetected := next_refreshed hstage'
  rw [hplacement, hdisk, Snapshot.changesSince_on hw.apart.wellFormed hw.fits.library] at hdetected
  have happlied : w.next.next.stage = .applying (Snapshot.on w.disk w.placement.sets) [] := by
    rw [hdetected, stage_moved]
  have hafter : next^[3] w = w.next.next.next := rfl
  rw [hafter, next_applying_nil happlied]
  refine ⟨by rw [stage_moved, hstage], ?_, ?_, ?_⟩
  · show w.next.next.disk = w.disk
    rw [disk_next_of_source? (by rw [hstage']; rfl) (by simp [hstage']), hdisk]
  · rw [placement_moved, hdetected, placement_moved, hplacement]
  · rw [failed_moved, hdetected, failed_moved, next_waiting hstage, failed_placed, failed_moved]

/-! ### A pass without edits -/

/-- What holds of the moments of a pass during which nothing is edited: a listed source is still
to be copied, or its copy is in place. -/
def Passing (w : Moment) : Prop :=
  ∀ rest, w.stage = .copying rest → w.failed = false →
    ∀ p ∈ sourcesOn w.disk w.placement.sets, p ∈ rest ∨ w.placement.Holds w.disk p

theorem passing_next (hw : Sane root storage w) (h : Passing w) : Passing w.next := by
  intro rest hrest hok p hp
  cases hstage : w.stage with
  | preparing =>
    rw [next_preparing hstage, stage_moved] at hrest
    split at hrest <;> cases hrest
  | givenUp => simp [next_givenUp hstage] at hrest
  | listing =>
    have hdisk : w.next.disk = w.disk := disk_next_of_source? (by rw [hstage]; rfl) (by simp [hstage])
    rw [hdisk] at hp
    rw [next_listing hstage] at hrest hp
    cases hrest
    exact Or.inl hp
  | copying all =>
    cases all with
    | nil => simp [next_copying_nil hstage] at hrest
    | cons q others =>
      have hsource : w.stage.source? = some q := by
        rw [hstage]
        rfl
      have hnext := next_copying_cons hstage
      have hplacement : w.next.placement = w.placement := by simp [hnext]
      obtain rfl : others = rest := by simpa [hnext] using hrest
      have hunfailed := (remembers_next w).2 hok
      -- the source was listed before the step as well
      have hw' := sane_next hw
      rw [hw'.mem_sources_iff, hplacement] at hp
      obtain ⟨hlist, hfile⟩ := hp
      have hlistable := hw.listable hlist
      have hfile' : w.disk.isFile p = true := by
        rw [Disk.isFile_iff_version] at hfile ⊢
        rwa [version?_next hw hlistable] at hfile
      have hmem := hw.mem_sources_iff.2 ⟨hlist, hfile'⟩
      obtain ⟨hother, hcopied⟩ := holds_next_of_source? hw hsource hlistable
      rw [hplacement, ← hw.holds_iff hlist]
      by_cases hpq : p = q
      · exact Or.inr (hpq ▸ hcopied hok)
      · rcases h _ hstage hunfailed p hmem with hpending | hholds
        · exact Or.inl ((List.mem_cons.1 hpending).resolve_left hpq)
        · rw [← hw.holds_iff hlist] at hholds
          exact Or.inr ((hother hpq).2 hholds)
  | waiting previous => simp [next_waiting hstage] at hrest
  | refreshed previous => simp [next_refreshed hstage] at hrest
  | applying current changes =>
    cases changes with
    | nil => simp [next_applying_nil hstage] at hrest
    | cons c others => simp [next_applying_cons hstage] at hrest

theorem passing_iterate (hw : Sane root storage w) (hstage : w.stage = .listing) (k : Nat) :
    Passing (next^[k] w) := by
  induction k with
  | zero =>
    intro rest hrest
    rw [Function.iterate_zero_apply, hstage] at hrest
    cases hrest
  | succ k ih =>
    rw [Function.iterate_succ_apply']
    exact passing_next (sane_of_runs hw (Runs.here.iterate k)) ih

/-! ### The watch -/

/-- In every run of a watched sync, after every poll that begins after the last edit, if no copy
failed, the copies that are not in place are those of the versions that were missed: recorded
by the first snapshot and not copied before it.  If nothing was edited from when the pass listed
its sources until the first snapshot was taken, all copies are in place. -/
theorem holds_iff_not_missed {n : Nat} {previous current : Snapshot} {h : Host}
    (hapart : Apart root storage h.disk)
    (hfirst : Runs root storage (Moment.start root storage h) b) (hcapture : b.stage = .copying [])
    (hlater : Runs root storage b.next w) (hwaits : w.stage = .waiting previous) (hn : 0 < n)
    (hpolled : (next^[n] w).stage = .waiting current) (hok : (next^[n] w).failed = false) :
    let after := next^[n] w
    (∀ p ∈ sourcesOn after.disk after.placement.sets,
      (after.placement.Holds after.disk p ↔ ¬ Missed b after.disk p)) ∧
    ∀ k s, Runs root storage (Moment.start root storage h) s → s.stage = .listing →
      b = next^[k] s → ∀ p ∈ sourcesOn after.disk after.placement.sets,
        after.placement.Holds after.disk p := by
  intro after
  have hb : Sane root storage b := sane_of_runs (sane_start hapart) hfirst
  have hw : Sane root storage w := sane_of_runs (sane_next hb) hlater
  have hafter : Sane root storage after := sane_of_runs hw (Runs.here.iterate n)
  obtain ⟨s, hfollows⟩ := follows_of_runs hb (sane_next hb) (follows_first hb hcapture)
    (hlater.iterate n)
  obtain rfl : s = current := by
    have hknown := hfollows.known
    rw [hpolled] at hknown
    exact (Option.some.inj hknown).symm
  -- the last poll saw every source, as nothing was edited any more
  have hcaught := (caught_iterate hw hwaits hn).times hpolled
  have hiff : ∀ p ∈ sourcesOn after.disk after.placement.sets,
      (after.placement.Holds after.disk p ↔ ¬ Missed b after.disk p) := by
    intro p hp
    obtain ⟨hlist, hfile⟩ := hafter.mem_sources_iff.1 hp
    have hlistable := hafter.listable hlist
    rw [← hafter.holds_iff hlist]
    constructor
    · intro hholds hmissed
      exact (hfollows.missed p hmissed).2.2.1 hholds
    · intro hnot
      obtain ⟨bytes, t, hversion⟩ := Disk.isFile_iff_version.1 hfile
      have htime := hcaught p bytes t hlistable hversion
      rcases hfollows.held hok p bytes t hlistable htime hversion with hrest | hholds | hmissed
      · rw [hpolled] at hrest
        cases hrest
      · exact hholds
      · exact absurd hmissed hnot
  -- a pass without edits leaves nothing to miss
  refine ⟨hiff, ?_⟩
  intro k s hs hlisting hbs p hp
  refine (hiff p hp).2 fun hmissed => hmissed.2.2 ?_
  have hpassing := passing_iterate (sane_of_runs (sane_start hapart) hs) hlisting k
  rw [← hbs] at hpassing
  have hunfailed : b.failed = false := unfailed_of_runs (Runs.step .here |>.trans (hlater.iterate n)) hok
  exact (hpassing [] hcapture hunfailed p hmissed.1).resolve_left (by simp)

/-! ### An edit that is missed -/

/-- A host with an empty project, and beside it a storage with empty buckets. -/
def idleHost : Host where
  disk := {
    nodes := [(["p"], .folder), (["s"], .folder), (["s", "home"], .folder), (["s", "lib"], .folder)]
    start := []
    clock := 1 }
  transcript := []

/-- The disk of that host after a script was written in the project. -/
def lateDisk : Disk :=
  { idleHost.disk with
    nodes := (["p", "a.rb"], .file "x".toUTF8 5 0o644) :: idleHost.disk.nodes }

theorem link?_of_idle {d : Disk} (hd : d = idleHost.disk ∨ d = lateDisk) (loc : Location) :
    d.link? loc = none := by
  refine Disk.link?_eq_none ?_ loc
  rcases hd with rfl | rfl <;> simp [lateDisk, idleHost]

theorem wellFormed_of_idle {d : Disk} (hd : d = idleHost.disk ∨ d = lateDisk) : d.WellFormed := by
  rcases hd with rfl | rfl <;> decide

theorem reaches_of_idle {d : Disk} (hd : d = idleHost.disk ∨ d = lateDisk) {n : String}
    {base : Location} (h : d.Leads d.start [.root, .name n] base) : base = [n] := by
  cases h with
  | root h => exact (Disk.leads_names [n] fun _ => link?_of_idle hd _).1 h

theorem apart_of_idle {d : Disk} (hd : d = idleHost.disk ∨ d = lateDisk) :
    Apart ⟨"/p"⟩ ⟨"/s"⟩ d := by
  have hopens : d.Opens ⟨"/p"⟩ mostLinks ["p"] := by
    refine ⟨⟨by decide, by decide, by decide, ?_⟩, ?_⟩
    · rcases hd with rfl | rfl <;> decide
    · show d.Way mostLinks [] [.down "p"] mostLinks ["p"]
      refine .down (by decide) ?_ .done
      rcases hd with rfl | rfl <;> decide
  refine apart_of_disjoint (wellFormed_of_idle hd) ?_ (link?_of_idle hd) hopens (by decide) ?_
  · rcases hd with rfl | rfl <;> decide
  · intro base base' hbase hbase'
    rw [reaches_of_idle hd hbase, reaches_of_idle hd hbase']
    decide

theorem library_of_idle {d : Disk} (hd : d = idleHost.disk ∨ d = lateDisk) :
    SourceSets.on d ⟨"/p"⟩ = ⟨⟨"/p"⟩, none⟩ := by
  rcases hd with rfl | rfl <;> decide

/-- The placement of the idle host. -/
def idlePlacement : Placement := ⟨⟨⟨"/p"⟩, none⟩, Buckets.on ⟨"/s"⟩⟩

theorem fits_idle : idlePlacement.Fits ⟨"/s"⟩ where
  library := by
    intro l hl
    cases hl
  buckets := rfl

theorem start_idle :
    Moment.start ⟨"/p"⟩ ⟨"/s"⟩ idleHost = ⟨idleHost, idlePlacement, .preparing, false, []⟩ := by
  rw [Moment.start, library_of_idle (Or.inl rfl), idlePlacement]

theorem prepareBuckets_idle :
    (idlePlacement.prepareBuckets.answer idleHost).isOk = true ∧
      idlePlacement.prepareBuckets.after idleHost = idleHost :=
  ⟨by decide, rfl⟩

theorem version?_idle (p : Path) : idleHost.disk.version? p = none := by
  refine Option.eq_none_iff_forall_ne_some.2 fun v hversion => ?_
  obtain ⟨mode, hnode⟩ := Disk.version?_eq_some.1 hversion
  obtain ⟨loc, -, hloc⟩ := Disk.node_ok_iff.1 hnode
  have hne : loc ≠ [] := fun hnil => by rw [hnil, Disk.node?_nil] at hloc; cases hloc
  have hmem := Disk.mem_nodes_of_node? hne hloc
  simp [idleHost] at hmem

theorem sourcesOn_idle (sets : SourceSets) : sourcesOn idleHost.disk sets = [] := by
  refine List.eq_nil_iff_forall_not_mem.2 fun p hp => ?_
  obtain ⟨bytes, t, hversion⟩ := Disk.isFile_iff_version.1 (isFile_of_mem hp)
  rw [version?_idle] at hversion
  cases hversion

/-- Where the pass stands after its second step: it listed nothing, so it has nothing to copy. -/
theorem listed_idle :
    let l := (Moment.start ⟨"/p"⟩ ⟨"/s"⟩ idleHost).next.next
    l.stage = .copying [] ∧ l.disk = idleHost.disk ∧ l.failed = false ∧
      l.placement = idlePlacement ∧ ∀ d ∈ l.history, d = idleHost.disk := by
  obtain ⟨hanswer, hafter⟩ := prepareBuckets_idle
  have hprepared : (Moment.mk idleHost idlePlacement .preparing false []).next =
      (Moment.mk idleHost idlePlacement .preparing false []).moved idleHost .listing := by
    rw [next_preparing rfl, hanswer, hafter]
    rfl
  have hlisted : (Moment.start ⟨"/p"⟩ ⟨"/s"⟩ idleHost).next.next =
      ((Moment.mk idleHost idlePlacement .preparing false []).moved idleHost .listing).moved
        ((sources idlePlacement.sets).after idleHost) (.copying []) := by
    rw [start_idle, hprepared, next_listing rfl, disk_moved, placement_moved, host_moved,
      sourcesOn_idle]
  rw [hlisted]
  refine ⟨rfl, disk_after_sources _ _, rfl, rfl, ?_⟩
  intro d hd
  simpa [history, disk] using hd

/-- Writing the script is an edit of the idle host. -/
theorem edit_idle {l : Moment} (hdisk : l.disk = idleHost.disk)
    (hpast : ∀ d ∈ l.history, d = idleHost.disk) : Edit ⟨"/p"⟩ ⟨"/s"⟩ l lateDisk where
  apart := apart_of_idle (Or.inr rfl)
  place := by
    intro base
    have hlinks : ∀ loc, lateDisk.link? loc = idleHost.disk.link? loc := fun loc => by
      rw [link?_of_idle (Or.inl rfl), link?_of_idle (Or.inr rfl)]
    rw [hdisk]
    exact ⟨Disk.Leads.congr fun loc => (hlinks loc).symm, Disk.Leads.congr hlinks⟩
  storage := by
    intro base hbase names
    rw [hdisk] at hbase ⊢
    obtain rfl : base = ["s"] := reaches_of_idle (Or.inl rfl) hbase
    simp [Disk.node?, lateDisk]
  fresh := by
    intro p _ bytes t _
    refine Or.inr fun d hd bytes' hversion => ?_
    rw [hpast d hd, version?_idle] at hversion
    cases hversion

theorem canList_lateDisk : idlePlacement.sets.CanList ⟨"/p/a.rb"⟩ := by
  exact Or.inl ⟨by decide, "a.rb", by decide, by decide, by decide⟩

theorem mem_sourcesOn_lateDisk : ⟨"/p/a.rb"⟩ ∈ sourcesOn lateDisk idlePlacement.sets := by
  refine (mem_sourcesOn_iff (wellFormed_of_idle (Or.inr rfl)) ?_).2 ⟨canList_lateDisk, by decide⟩
  intro l hl
  cases hl

/-- No copy of the script is in place when it is written. -/
theorem not_holds_lateDisk : ¬ idlePlacement.Holds lateDisk ⟨"/p/a.rb"⟩ := by
  rintro ⟨q, loc, bytes, t, mode, hq, hreaches, hnode, -⟩
  obtain ⟨q', tail, hq', -, hcomponents⟩ := destination_of_canList fits_idle canList_lateDisk
  obtain rfl : q' = q := Option.some.inj (hq'.symm.trans hq)
  obtain ⟨base, hbase, rfl⟩ := (Disk.reaches_below (fun _ _ _ => link?_of_idle (Or.inr rfl) _)
    hcomponents).1 hreaches
  obtain rfl : base = ["s"] := reaches_of_idle (Or.inr rfl) hbase
  have hmem := Disk.mem_nodes_of_node? (by simp) hnode
  simp [lateDisk, idleHost] at hmem

/-- The script that comes after the listing and before the first snapshot is never copied. -/
theorem holds_iff_not_missed_lateDisk :
    let b := (Moment.start ⟨"/p"⟩ ⟨"/s"⟩ idleHost).next.next.edited lateDisk
    let after := next^[3] b.next
    after.failed = false ∧ ⟨"/p/a.rb"⟩ ∈ sourcesOn after.disk after.placement.sets ∧
      ¬ after.placement.Holds after.disk ⟨"/p/a.rb"⟩ := by
  obtain ⟨hlisted, hdisk, hunfailed, hplacement, hpast⟩ := listed_idle
  generalize hl : (Moment.start ⟨"/p"⟩ ⟨"/s"⟩ idleHost).next.next = l at *
  intro b after
  have hfirst : Runs ⟨"/p"⟩ ⟨"/s"⟩ (Moment.start ⟨"/p"⟩ ⟨"/s"⟩ idleHost) b :=
    .edit (hl ▸ .step (.step .here)) (edit_idle hdisk hpast)
  have hb : Sane ⟨"/p"⟩ ⟨"/s"⟩ b := sane_of_runs (sane_start (apart_of_idle (Or.inl rfl))) hfirst
  have hcapture : b.stage = .copying [] := hlisted
  have hbdisk : b.disk = lateDisk := rfl
  have hbplacement : b.placement = idlePlacement := hplacement
  have hsets : idlePlacement.sets = SourceSets.on lateDisk ⟨"/p"⟩ :=
    (library_of_idle (Or.inr rfl)).symm
  -- the first snapshot has the script, so the poll finds nothing new
  have hwaits : b.next.stage = .waiting (Snapshot.on b.disk b.placement.sets) := by
    rw [next_copying_nil hcapture, stage_moved]
  have hwdisk : b.next.disk = b.disk :=
    disk_next_of_source? (by rw [hcapture]; rfl) (by simp [hcapture])
  have hwplacement : b.next.placement = b.placement := by
    rw [next_copying_nil hcapture, placement_moved]
  have hwfailed : b.next.failed = false := by
    rw [next_copying_nil hcapture, failed_moved]
    exact hunfailed
  obtain ⟨hstage, hadisk, haplacement, hafailed⟩ := poll_unchanged (sane_next hb)
    (by rw [hwplacement, hwdisk, hbplacement, hbdisk, hsets])
    (by rw [hwaits, hwplacement, hwdisk])
  have hok : after.failed = false := hafailed.trans hwfailed
  have hiff := (holds_iff_not_missed (apart_of_idle (Or.inl rfl)) hfirst hcapture .here hwaits
    (by decide) (hstage.trans hwaits) hok).1
  rw [hadisk, haplacement, hwdisk, hwplacement, hbdisk, hbplacement] at hiff
  have hmem : ⟨"/p/a.rb"⟩ ∈ sourcesOn lateDisk idlePlacement.sets := mem_sourcesOn_lateDisk
  refine ⟨hok, ?_, ?_⟩
  · rw [hadisk, haplacement, hwdisk, hwplacement, hbdisk, hbplacement]
    exact hmem
  · rw [hadisk, haplacement, hwdisk, hwplacement, hbdisk, hbplacement, hiff _ hmem, not_not, Missed,
      hbdisk, hbplacement]
    exact ⟨hmem, rfl, not_holds_lateDisk⟩

end GemCourier.Sync
