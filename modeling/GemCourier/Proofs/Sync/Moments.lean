/-
GemCourier/Proofs/Sync/Moments.lean

A watched sync, one step at a time.

The program does a pass, takes a first snapshot and then polls.  What else goes
on between its steps is not seen in a pass or a poll as a whole, so a `Moment`
says where the program stands: at which stage, with which placement, on which
host.  `next` takes the one step that comes then, which lists, copies a single
file, takes a snapshot or resolves the sets.  Taken one after the other with
nothing in between, the steps are the pass, the start of the watch and the poll
(`syncOnce_steps`, `startWatch_step`, `poll_steps`).

A moment also remembers which disks there were before and whether a copy failed.

Main results: `syncOnce_steps`, `startWatch_step`, `poll_steps`.
-/
import Mathlib.Logic.Function.Iterate
import GemCourier.Proofs.Sync.Pass
import GemCourier.Proofs.Sync.Snapshots
import GemCourier.Sync.Watch

namespace GemCourier.Sync

namespace Placement

/-- Takes the snapshot of a poll and says what changed since the one before. -/
def detect (m : Placement) (previous : Snapshot) : Act (Snapshot × List Change) := do
  let current ← Snapshot.capture m.sets
  let changes := current.changesSince previous
  if !changes.isEmpty then
    Act.note .info s!"Detected {changes.length} change(s)"
  return (current, changes)

end Placement

/-- Where a watched sync stands. -/
inductive Stage where
  /-- The buckets are to be made sure of. -/
  | preparing
  /-- A bucket could not be made. -/
  | givenUp
  /-- The sources are to be listed. -/
  | listing
  /-- Listed sources are still to be copied, and then the first snapshot is to be taken. -/
  | copying (rest : List Path)
  /-- The next poll is awaited. -/
  | waiting (previous : Snapshot)
  /-- A poll has resolved the sets again and is to take its snapshot. -/
  | refreshed (previous : Snapshot)
  /-- A poll has taken its snapshot, and some changes are still to be applied. -/
  | applying (current : Snapshot) (rest : List Change)

namespace Stage

/-- The source that is copied in the next step, if one is. -/
def source? : Stage → Option Path
  | copying (p :: _) => some p
  | applying _ (c :: _) => c.source?
  | _ => none

/-- The sources that are still to be copied. -/
def pending : Stage → List Path
  | copying rest => rest
  | applying _ rest => rest.filterMap Change.source?
  | _ => []

/-- The latest snapshot, once there is one. -/
def snapshot? : Stage → Option Snapshot
  | waiting s => some s
  | refreshed s => some s
  | applying s _ => some s
  | _ => none

end Stage

/-- A watched sync at one instant. -/
structure Moment where
  host : Host
  placement : Placement
  stage : Stage
  /-- Whether the copy of a source failed so far. -/
  failed : Bool
  /-- The disks that there were before, the latest first. -/
  past : List Disk

namespace Moment

/-- The disk as it is now. -/
def disk (w : Moment) : Disk := w.host.disk

/-- All disks that there were, with the one that there is now. -/
def history (w : Moment) : List Disk := w.disk :: w.past

/-- The moment at which a sync of a project to a storage begins. -/
def start (root storage : Path) (h : Host) : Moment where
  host := h
  placement := ⟨SourceSets.on h.disk root, Buckets.on storage⟩
  stage := .preparing
  failed := false
  past := []

/-- The moment with another host and another stage. -/
def moved (w : Moment) (h : Host) (stage : Stage) : Moment :=
  { w with host := h, stage := stage, past := w.history }

/-- The moment with another placement. -/
def placed (w : Moment) (m : Placement) : Moment :=
  { w with placement := m }

/-- The moment that remembers whether one more copy failed. -/
def noting (w : Moment) (failed : Bool) : Moment :=
  { w with failed := w.failed || failed }

/-- The moment after the disk was changed from outside. -/
def edited (w : Moment) (d : Disk) : Moment :=
  w.moved { w.host with disk := d } w.stage

/-- Whether the copy of a source fails now. -/
def fails (w : Moment) (p : Path) : Bool :=
  !((w.placement.copyFile p).answer w.host).isOk

/-- The next moment, after the one step that comes now. -/
def next (w : Moment) : Moment :=
  let m := w.placement
  match w.stage with
  | .preparing => w.moved (m.prepareBuckets.after w.host)
      (if (m.prepareBuckets.answer w.host).isOk then .listing else .givenUp)
  | .givenUp => w.moved w.host .givenUp
  | .listing => w.moved ((sources m.sets).after w.host) (.copying ((sources m.sets).answer w.host))
  | .copying [] => w.moved ((Snapshot.capture m.sets).after w.host)
      (.waiting ((Snapshot.capture m.sets).answer w.host))
  | .copying (p :: rest) =>
    (w.moved ((m.copyNoted p).after w.host) (.copying rest)).noting (w.fails p)
  | .waiting previous =>
    (w.moved (m.refresh.after w.host) (.refreshed previous)).placed (m.refresh.answer w.host)
  | .refreshed previous =>
    let (current, changes) := (m.detect previous).answer w.host
    w.moved ((m.detect previous).after w.host) (.applying current changes)
  | .applying current [] => w.moved w.host (.waiting current)
  | .applying current (c :: rest) =>
    (w.moved ((m.applyOne c).after w.host) (.applying current rest)).noting
      (c.source?.any w.fails)

variable {w : Moment} {previous current : Snapshot}

/-! ### What single steps answer and change -/

section Fields

variable (h : Host) (stage : Stage) (m : Placement) (failed : Bool)

@[simp] theorem host_moved : (w.moved h stage).host = h := rfl
@[simp] theorem disk_moved : (w.moved h stage).disk = h.disk := rfl
@[simp] theorem placement_moved : (w.moved h stage).placement = w.placement := rfl
@[simp] theorem stage_moved : (w.moved h stage).stage = stage := rfl
@[simp] theorem failed_moved : (w.moved h stage).failed = w.failed := rfl
@[simp] theorem past_moved : (w.moved h stage).past = w.history := rfl

@[simp] theorem host_placed : (w.placed m).host = w.host := rfl
@[simp] theorem disk_placed : (w.placed m).disk = w.disk := rfl
@[simp] theorem placement_placed : (w.placed m).placement = m := rfl
@[simp] theorem stage_placed : (w.placed m).stage = w.stage := rfl
@[simp] theorem failed_placed : (w.placed m).failed = w.failed := rfl
@[simp] theorem past_placed : (w.placed m).past = w.past := rfl

@[simp] theorem host_noting : (w.noting failed).host = w.host := rfl
@[simp] theorem disk_noting : (w.noting failed).disk = w.disk := rfl
@[simp] theorem placement_noting : (w.noting failed).placement = w.placement := rfl
@[simp] theorem stage_noting : (w.noting failed).stage = w.stage := rfl
@[simp] theorem failed_noting : (w.noting failed).failed = (w.failed || failed) := rfl
@[simp] theorem past_noting : (w.noting failed).past = w.past := rfl

end Fields

theorem reportLeftOut_keeps {γ : Type} {view : Host → γ}
    (hnote : ∀ level text, (Act.note level text).Keeps view) (d : Disk) (files : List Path) :
    (Snapshot.reportLeftOut d files).Keeps view := by
  induction files with
  | nil => exact .pure ()
  | cons p rest ih =>
    unfold Snapshot.reportLeftOut
    split
    · exact ih
    · exact .bind (hnote _ _) fun _ => ih

@[simp] theorem answer_capture (sets : SourceSets) (h : Host) :
    (Snapshot.capture sets).answer h = Snapshot.on h.disk sets := by
  have hdisk := disk_after_sources sets h
  simp [Snapshot.capture, Snapshot.on, hdisk]

@[simp] theorem disk_after_capture (sets : SourceSets) (h : Host) :
    ((Snapshot.capture sets).after h).disk = h.disk := by
  have hdisk := disk_after_sources sets h
  have hkeeps := reportLeftOut_keeps Act.Keeps.note_disk h.disk (sourcesOn h.disk sets)
    ((sources sets).after h)
  simp [Snapshot.capture, hdisk, hkeeps]

@[simp] theorem answer_detect (m : Placement) (h : Host) :
    (m.detect previous).answer h =
      (Snapshot.on h.disk m.sets, (Snapshot.on h.disk m.sets).changesSince previous) := by
  simp only [Placement.detect, Act.answer_bind, answer_capture]
  split <;> rfl

@[simp] theorem disk_after_detect (m : Placement) (h : Host) :
    ((m.detect previous).after h).disk = h.disk := by
  simp only [Placement.detect, Act.after_bind, answer_capture]
  split <;> simp

theorem answer_refresh (m : Placement) (h : Host) :
    m.refresh.answer h = if (SourceSets.on h.disk m.sets.root).sameAs m.sets then m
      else { m with sets := SourceSets.on h.disk m.sets.root } := by
  simp only [Placement.refresh, Act.answer_bind, answer_resolve]
  split <;> rfl

@[simp] theorem disk_after_refresh (m : Placement) (h : Host) :
    (m.refresh.after h).disk = h.disk := by
  simp only [Placement.refresh, Act.after_bind, answer_resolve]
  split <;> simp

/-- What a change does to the disk is to copy its source, if it asks for that. -/
theorem disk_after_applyOne (m : Placement) (c : Change) (h : Host) :
    ((m.applyOne c).after h).disk = match c.source? with
      | some p => ((m.copyFile p).after h).disk
      | none => h.disk := by
  -- new and modified files are copied alike
  have hupsert : ((m.applyUpsert c).after h).disk = ((m.copyFile c.path).after h).disk := by
    simp only [Placement.applyUpsert, Act.after_bind]
    split <;> simp
  obtain ⟨kind, p⟩ := c
  cases kind with
  | new => exact hupsert
  | modified => exact hupsert
  | deleted => simp [Placement.applyOne, Change.source?]

/-! ### The steps by stages -/

theorem next_preparing (h : w.stage = .preparing) :
    w.next = w.moved (w.placement.prepareBuckets.after w.host)
      (if (w.placement.prepareBuckets.answer w.host).isOk then .listing else .givenUp) := by
  rw [next, h]

theorem next_givenUp (h : w.stage = .givenUp) : w.next = w.moved w.host .givenUp := by
  rw [next, h]

theorem next_listing (h : w.stage = .listing) :
    w.next = w.moved ((sources w.placement.sets).after w.host)
      (.copying (sourcesOn w.disk w.placement.sets)) := by
  rw [next, h]
  rfl

theorem next_copying_nil (h : w.stage = .copying []) :
    w.next = w.moved ((Snapshot.capture w.placement.sets).after w.host)
      (.waiting (Snapshot.on w.disk w.placement.sets)) := by
  rw [next, h]
  simp [disk]

theorem next_copying_cons {p : Path} {rest : List Path} (h : w.stage = .copying (p :: rest)) :
    w.next = (w.moved ((w.placement.copyNoted p).after w.host) (.copying rest)).noting
      (w.fails p) := by
  rw [next, h]

theorem next_waiting (h : w.stage = .waiting previous) :
    w.next = (w.moved (w.placement.refresh.after w.host) (.refreshed previous)).placed
      (w.placement.refresh.answer w.host) := by
  rw [next, h]

theorem next_refreshed (h : w.stage = .refreshed previous) :
    w.next = w.moved ((w.placement.detect previous).after w.host)
      (.applying (Snapshot.on w.disk w.placement.sets)
        ((Snapshot.on w.disk w.placement.sets).changesSince previous)) := by
  rw [next, h]
  simp [disk]

theorem next_applying_nil (h : w.stage = .applying current []) :
    w.next = w.moved w.host (.waiting current) := by
  rw [next, h]

theorem next_applying_cons {c : Change} {rest : List Change}
    (h : w.stage = .applying current (c :: rest)) :
    w.next = (w.moved ((w.placement.applyOne c).after w.host) (.applying current rest)).noting
      (c.source?.any w.fails) := by
  rw [next, h]

/-- A step remembers the disk that there was, and that a copy failed. -/
theorem remembers_next (w : Moment) :
    w.next.past = w.history ∧ (w.next.failed = false → w.failed = false) := by
  cases hstage : w.stage with
  | preparing => simp [next_preparing hstage]
  | givenUp => simp [next_givenUp hstage]
  | listing => simp [next_listing hstage]
  | copying rest =>
    cases rest with
    | nil => simp [next_copying_nil hstage]
    | cons p rest => simp +contextual [next_copying_cons hstage]
  | waiting previous => simp [next_waiting hstage]
  | refreshed previous => simp [next_refreshed hstage]
  | applying current rest =>
    cases rest with
    | nil => simp [next_applying_nil hstage]
    | cons c rest => simp +contextual [next_applying_cons hstage]

theorem history_next (w : Moment) : w.next.history = w.next.disk :: w.history := by
  rw [history, (remembers_next w).1]

/-! ### A pass, a first snapshot and a poll as steps -/

/-- The steps that copy some sources are the copy of them all. -/
theorem copyFiles_steps (rest : List Path) (hstage : w.stage = .copying rest) :
    (next^[rest.length] w).stage = .copying [] ∧
      (next^[rest.length] w).placement = w.placement ∧
      (next^[rest.length] w).host = (w.placement.copyFiles rest).after w.host ∧
      (next^[rest.length] w).failed =
        (w.failed || !((w.placement.copyFiles rest).answer w.host).failures.isEmpty) := by
  induction rest generalizing w with
  | nil => simp [hstage, Placement.copyFiles]
  | cons p rest ih =>
    have hnext := next_copying_cons hstage
    obtain ⟨hcopied, hplacement, hhost, hfailed⟩ := ih (w := w.next) (by rw [hnext]; rfl)
    obtain ⟨hafter, hanswer⟩ := Placement.copyFiles_cons w.placement p rest w.host
    rw [List.length_cons, Function.iterate_succ_apply]
    refine ⟨hcopied, by rw [hplacement, hnext]; rfl, ?_, ?_⟩
    · rw [hhost, hafter, hnext]
      rfl
    · rw [hfailed, hanswer, hnext]
      show (w.failed || w.fails p || _) = _
      unfold Placement.counted
      cases hcopy : (w.placement.copyFile p).answer w.host with
      | error e => simp [fails, hcopy, Except.isOk, Except.toBool]
      | ok destination =>
        cases destination <;> simp [fails, hcopy, Except.isOk, Except.toBool, moved]

/-- From the beginning, the steps up to the first snapshot are a pass that is not given up. -/
theorem syncOnce_steps {report : PassReport} (hstage : w.stage = .preparing)
    (hok : w.placement.syncOnce.answer w.host = .ok report) :
    ∃ k, (next^[k] w).stage = .copying [] ∧ (next^[k] w).placement = w.placement ∧
      (next^[k] w).disk = (w.placement.syncOnce.after w.host).disk ∧
      (next^[k] w).failed = (w.failed || !report.failures.isEmpty) := by
  cases hprepare : w.placement.prepareBuckets.answer w.host with
  | error e => simp [Placement.syncOnce, hprepare] at hok
  | ok _ =>
    have hprepared := next_preparing hstage
    rw [hprepare] at hprepared
    have hlisted := next_listing (w := w.next) (by rw [hprepared]; rfl)
    obtain ⟨hcopied, hplacement, hhost, hfailed⟩ := copyFiles_steps (w := w.next.next) _
      (by rw [hlisted]; rfl)
    have hsteps : ∀ k, next^[k + 1 + 1] w = next^[k] w.next.next := by
      intro k
      rw [Function.iterate_succ_apply, Function.iterate_succ_apply]
    -- one step for the buckets, one for the listing and one for each source
    refine ⟨(sourcesOn w.next.disk w.next.placement.sets).length + 1 + 1, ?_, ?_, ?_, ?_⟩
    · rw [hsteps]
      exact hcopied
    · rw [hsteps, hplacement, hlisted, hprepared]
      rfl
    · rw [hsteps, disk, hhost, hlisted, hprepared]
      simp [Placement.syncOnce, hprepare]
    · rw [hsteps, hfailed, hlisted, hprepared]
      simp only [Placement.syncOnce, hprepare, Act.answer_bind, Act.answer_pure, answer_sources,
        Except.ok.injEq] at hok
      rw [← hok]
      rfl

/-- The step after the last copy of the pass is the start of the watch. -/
theorem startWatch_step (interval : Interval) (hstage : w.stage = .copying []) :
    w.next.stage = .waiting ((w.placement.startWatch interval).answer w.host) ∧
      w.next.placement = w.placement ∧
      w.next.disk = ((w.placement.startWatch interval).after w.host).disk := by
  rw [next_copying_nil hstage]
  refine ⟨?_, rfl, ?_⟩
  · simp [Placement.startWatch, disk]
  · simp [Placement.startWatch]

/-- The steps that apply some changes apply them all. -/
theorem apply_steps (rest : List Change) (hstage : w.stage = .applying current rest) :
    (next^[rest.length] w).stage = .applying current [] ∧
      (next^[rest.length] w).placement = w.placement ∧
      (next^[rest.length] w).host = (w.placement.apply rest).after w.host := by
  induction rest generalizing w with
  | nil => exact ⟨hstage, rfl, rfl⟩
  | cons c rest ih =>
    have hnext := next_applying_cons hstage
    obtain ⟨happlied, hplacement, hhost⟩ := ih (w := w.next) (by rw [hnext]; rfl)
    rw [List.length_cons, Function.iterate_succ_apply]
    refine ⟨happlied, by rw [hplacement, hnext]; rfl, ?_⟩
    rw [hhost, hnext]
    rfl

/-- A poll resolves the sets again, takes its snapshot and applies the changes. -/
theorem poll_eq (m : Placement) (previous : Snapshot) (h : Host) :
    (m.poll previous).answer h =
        (m.refresh.answer h, Snapshot.on h.disk (m.refresh.answer h).sets) ∧
      (m.poll previous).after h = ((m.refresh.answer h).apply
          ((Snapshot.on h.disk (m.refresh.answer h).sets).changesSince previous)).after
        (((m.refresh.answer h).detect previous).after (m.refresh.after h)) := by
  generalize hchanges :
    (Snapshot.on h.disk (m.refresh.answer h).sets).changesSince previous = changes
  cases changes with
  | nil => simp [Placement.poll, Placement.detect, Placement.apply, hchanges]
  | cons c rest => simp [Placement.poll, Placement.detect, hchanges]

/-- From one wait to the next, the steps are a poll. -/
theorem poll_steps (hstage : w.stage = .waiting previous) :
    ∃ k, 0 < k ∧ (next^[k] w).placement = ((w.placement.poll previous).answer w.host).1 ∧
      (next^[k] w).stage = .waiting ((w.placement.poll previous).answer w.host).2 ∧
      (next^[k] w).host = (w.placement.poll previous).after w.host := by
  obtain ⟨hanswer, hafter⟩ := poll_eq w.placement previous w.host
  rw [hanswer, hafter]
  have hrefreshed := next_waiting hstage
  have hplaced : w.next.placement = w.placement.refresh.answer w.host := by simp [hrefreshed]
  have hhost : w.next.host = w.placement.refresh.after w.host := by simp [hrefreshed]
  have hdisk : w.next.disk = w.host.disk := by rw [disk, hhost, disk_after_refresh]
  have hstage' : w.next.stage = .refreshed previous := by simp [hrefreshed]
  have hdetected := next_refreshed hstage'
  rw [hdisk, hplaced, hhost] at hdetected
  generalize (Snapshot.on w.host.disk (w.placement.refresh.answer w.host).sets).changesSince
    previous = changes at hdetected ⊢
  obtain ⟨happlied, hplacement, happlied'⟩ := apply_steps (w := w.next.next) changes
    (by rw [hdetected, stage_moved])
  -- one step for the sets, one for the snapshot, the changes, and one to wait again
  refine ⟨changes.length + 1 + 1 + 1, Nat.succ_pos _, ?_⟩
  rw [Function.iterate_succ_apply, Function.iterate_succ_apply, Function.iterate_succ_apply',
    next_applying_nil happlied]
  dsimp only
  refine ⟨?_, stage_moved _ _, ?_⟩
  · rw [placement_moved, hplacement, hdetected, placement_moved, hplaced]
  · rw [host_moved, happlied', hdetected, placement_moved, host_moved, hplaced]

end Moment

end GemCourier.Sync
