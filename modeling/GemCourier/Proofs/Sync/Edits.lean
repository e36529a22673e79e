/-
GemCourier/Proofs/Sync/Edits.lean

A watched sync while its project is edited.

Between any two steps of the program the project may be changed from outside.
Two things are asked of such an edit: it leaves the storage as it is, and a file
that it makes or rewrites gets a time that its path never had.  A run is any
sequence of steps and edits.

What holds of every moment of a run (`Sane`) is enough to say what the next step
does: the files of the project stay as they are, and at most one copy changes,
which afterwards holds what its source holds unless the step failed.

Main results: `sane_of_runs`, `version?_next`, `holds_next_of_source?`,
`holds_edited`.
-/
import GemCourier.Proofs.Sync.Apart
import GemCourier.Proofs.Sync.Moments

namespace GemCourier.Sync

variable {root storage p q : Path} {w w' : Moment} {e : Disk}

/-! ### Runs -/

/-- What may be done from outside at a moment to turn the disk into `e`: anything that leaves
what lies at and below the place of the storage as it is and the two apart, if each file of the
project has the version it had or a time that its path never had. -/
structure Edit (root storage : Path) (w : Moment) (e : Disk) : Prop where
  apart : Apart root storage e
  place : ∀ base, e.Reaches storage base ↔ w.disk.Reaches storage base
  storage : ∀ base, w.disk.Reaches storage base → ∀ names,
    e.node? (base ++ names) = w.disk.node? (base ++ names)
  fresh : ∀ p, Listable root p → ∀ bytes t, e.version? p = some (bytes, t) →
    w.disk.version? p = some (bytes, t) ∨
      ∀ d ∈ w.history, ∀ bytes', d.version? p ≠ some (bytes', t)

/-- A version with a time that was seen before an edit was there before it. -/
theorem Edit.version?_of_seen (he : Edit root storage w e) (hp : Listable root p) {d : Disk}
    {bytes bytes' : ByteArray} {t : Int} (hd : d ∈ w.history)
    (hseen : d.version? p = some (bytes', t)) (hversion : e.version? p = some (bytes, t)) :
    w.disk.version? p = some (bytes, t) := by
  rcases he.fresh p hp bytes t hversion with hsame | hnever
  · exact hsame
  · exact absurd hseen (hnever d hd bytes')

/-- `Runs root storage w w'`: steps of the program and edits in any order lead from the moment
`w` to the moment `w'`. -/
inductive Runs (root storage : Path) (w : Moment) : Moment → Prop
  | here : Runs root storage w w
  | step {w' : Moment} : Runs root storage w w' → Runs root storage w w'.next
  | edit {w' : Moment} {e : Disk} : Runs root storage w w' → Edit root storage w' e →
      Runs root storage w (w'.edited e)

theorem Runs.trans {w'' : Moment} (h : Runs root storage w w') (h' : Runs root storage w' w'') :
    Runs root storage w w'' := by
  induction h' with
  | here => exact h
  | step _ ih => exact .step ih
  | edit _ hedit ih => exact .edit ih hedit

theorem Runs.iterate (h : Runs root storage w w') (n : Nat) :
    Runs root storage w (Moment.next^[n] w') := by
  induction n with
  | zero => exact h
  | succ n ih =>
    rw [Function.iterate_succ_apply']
    exact .step ih

/-- A run in which no copy failed has no part in which one did. -/
theorem unfailed_of_runs (h : Runs root storage w w') (hok : w'.failed = false) :
    w.failed = false := by
  induction h with
  | here => exact hok
  | step _ ih => exact ih ((Moment.remembers_next _).2 hok)
  | edit _ _ ih => exact ih hok

/-- What holds of every moment of a run: the project and the storage are apart, the placement
is one for them, and the sources still to be copied are some that it can list. -/
structure Sane (root storage : Path) (w : Moment) : Prop where
  apart : Apart root storage w.disk
  fits : w.placement.Fits storage
  root_eq : w.placement.sets.root = root
  pending : ∀ p ∈ w.stage.pending, w.placement.sets.CanList p

namespace Sane

/-- The sources at a moment are the files that its placement can list. -/
theorem mem_sources_iff (hw : Sane root storage w) :
    p ∈ sourcesOn w.disk w.placement.sets ↔
      w.placement.sets.CanList p ∧ w.disk.isFile p = true :=
  mem_sourcesOn_iff hw.apart.wellFormed hw.fits.library

theorem listable (hw : Sane root storage w) (hp : w.placement.sets.CanList p) : Listable root p :=
  hw.root_eq ▸ hp.listable

/-- What a snapshot taken at the moment records of a path. -/
theorem time?_iff {t : Int} (hw : Sane root storage w) (hp : Listable root p) :
    (Snapshot.on w.disk w.placement.sets).time? p = some t ↔
      w.placement.sets.CanList p ∧ ∃ bytes, w.disk.version? p = some (bytes, t) :=
  Snapshot.time?_on hw.apart.wellFormed hw.fits.library (by rw [hw.root_eq]; exact hp)

theorem holds_iff {d : Disk} (hw : Sane root storage w) (hp : w.placement.sets.CanList p) :
    (Placement.whole root storage).Holds d p ↔ w.placement.Holds d p :=
  holds_whole hw.fits hw.root_eq hp

end Sane

theorem sane_start {h : Host} (hapart : Apart root storage h.disk) :
    Sane root storage (Moment.start root storage h) where
  apart := hapart
  fits := fits_on h.disk root storage
  root_eq := rfl
  pending := by
    intro p hp
    cases hp

theorem sane_edited (hw : Sane root storage w) (he : Edit root storage w e) :
    Sane root storage (w.edited e) where
  apart := he.apart
  fits := hw.fits
  root_eq := hw.root_eq
  pending := hw.pending

/-! ### What a step does -/

namespace Moment

/-- A step that copies a source does to the disk what the copy does, fails if the copy does, and
leaves the source out of those that are still to be copied. -/
theorem next_of_source? (h : w.stage.source? = some p) :
    w.next.disk = ((w.placement.copyFile p).after w.host).disk ∧
      w.next.failed = (w.failed || w.fails p) ∧ w.next.placement = w.placement ∧
      w.next.stage.snapshot? = w.stage.snapshot? ∧
      w.stage.pending = p :: w.next.stage.pending := by
  unfold Stage.source? at h
  split at h
  · next rest hstage =>
    cases h
    simp [next_copying_cons hstage, hstage, Stage.snapshot?, Stage.pending]
  · next current c rest hstage =>
    simp [next_applying_cons hstage, hstage, disk_after_applyOne, h, Stage.snapshot?, Stage.pending]
  · cases h

/-- A step that copies nothing leaves the disk as it is, once the buckets are there. -/
theorem disk_next_of_source? (h : w.stage.source? = none) (hready : w.stage ≠ .preparing) :
    w.next.disk = w.disk := by
  cases hstage : w.stage with
  | preparing => exact absurd hstage hready
  | givenUp => simp [next_givenUp hstage, disk]
  | listing => simp [next_listing hstage, disk]
  | copying rest =>
    cases rest with
    | nil => simp [next_copying_nil hstage, disk]
    | cons p rest => simp [hstage, Stage.source?] at h
  | waiting previous => simp [next_waiting hstage, disk]
  | refreshed previous => simp [next_refreshed hstage, disk]
  | applying current rest =>
    cases rest with
    | nil => simp [next_applying_nil hstage, disk]
    | cons c rest =>
      have hnone : c.source? = none := by simpa [hstage, Stage.source?] using h
      simp [next_applying_cons hstage, disk_after_applyOne, hnone, disk]

end Moment

open Moment

/-- The buckets are made sure of within the storage, for they are in it by their names. -/
theorem within_of_prepares {m : Placement} {deed : Deed} (hfits : m.Fits storage)
    (h : Placement.Prepares m deed) : deed.Within storage := by
  cases deed with
  | wrote p bytes => exact absurd h id
  | made p =>
    rw [Placement.Prepares, hfits.buckets, components_home, components_lib] at h
    rcases h with hhome | hlib
    · exact Deed.within_made ["home"] hhome
    · exact Deed.within_made ["lib"] hlib

/-- A step does what it does within the storage. -/
theorem does_next (hw : Sane root storage w) :
    ∃ deeds, w.disk.Does deeds w.next.disk ∧ ∀ deed ∈ deeds, deed.Within storage := by
  cases hsource : w.stage.source? with
  | some p =>
    obtain ⟨hdisk, -, -, -, hpending⟩ := next_of_source? hsource
    obtain ⟨deeds, hdeeds, hserve⟩ := Placement.does_copyFile (m := w.placement) p w.host
    refine ⟨deeds, by rw [hdisk]; exact hdeeds, fun deed hdeed => ?_⟩
    exact within_of_serves hw.fits (hw.pending p (by simp [hpending])) (hserve deed hdeed)
  | none =>
    by_cases hstage : w.stage = .preparing
    · obtain ⟨deeds, hdeeds, hprepares⟩ := Placement.does_prepareBuckets w.placement w.host
      exact ⟨deeds, by rw [next_preparing hstage, disk_moved]; exact hdeeds,
        fun deed hdeed => within_of_prepares hw.fits (hprepares deed hdeed)⟩
    · exact ⟨[], by rw [disk_next_of_source? hsource hstage]; exact .nothing _, by simp⟩

/-- No step of the program changes a file of the project. -/
theorem version?_next (hw : Sane root storage w) (hp : Listable root p) :
    w.next.disk.version? p = w.disk.version? p := by
  obtain ⟨deeds, hdeeds, hwithin⟩ := does_next hw
  exact (hw.apart.aside _ _ hdeeds hwithin).2 p hp

/-- Resolving the sets again gives those that the disk has now. -/
theorem refresh_eq {m : Placement} {h : Host} (hfits : m.Fits storage) :
    m.refresh.answer h = { m with sets := SourceSets.on h.disk m.sets.root } := by
  rw [answer_refresh]
  split
  · next hsame =>
    rw [SourceSets.sameAs, Bool.and_eq_true] at hsame
    -- sets that are the same place have the same library, as each is the candidate or none
    have hlibrary : (SourceSets.on h.disk m.sets.root).library = m.sets.library := by
      have hsame' := hsame.2
      cases hnow : (SourceSets.on h.disk m.sets.root).library with
      | none =>
        cases hold : m.sets.library with
        | none => rfl
        | some l => rw [hnow, hold] at hsame'; cases hsame'
      | some l =>
        cases hold : m.sets.library with
        | none => rw [hnow, hold] at hsame'; cases hsame'
        | some l' => rw [library_on _ _ l hnow, hfits.library l' hold]
    have hsets : SourceSets.on h.disk m.sets.root = m.sets :=
      congrArg (SourceSets.mk m.sets.root) hlibrary
    rw [hsets]
  · rfl

/-- The sets of the placement are kept by a step, unless they are resolved again. -/
theorem placement_next (hw : Sane root storage w) :
    w.next.placement = w.placement ∨ (∃ previous, w.stage = .waiting previous) ∧
      w.next.placement = { w.placement with sets := SourceSets.on w.disk root } := by
  cases hstage : w.stage with
  | preparing => simp [next_preparing hstage]
  | givenUp => simp [next_givenUp hstage]
  | listing => simp [next_listing hstage]
  | copying rest =>
    cases rest with
    | nil => simp [next_copying_nil hstage]
    | cons p rest => simp [next_copying_cons hstage]
  | waiting previous =>
    refine Or.inr ⟨⟨previous, rfl⟩, ?_⟩
    rw [next_waiting hstage, placement_placed, refresh_eq hw.fits, hw.root_eq, disk]
  | refreshed previous => simp [next_refreshed hstage]
  | applying current rest =>
    cases rest with
    | nil => simp [next_applying_nil hstage]
    | cons c rest => simp [next_applying_cons hstage]

/-- What is to be copied after a step can be listed. -/
theorem canList_of_pending_next (hw : Sane root storage w) (hp : p ∈ w.next.stage.pending) :
    w.next.placement.sets.CanList p := by
  cases hsource : w.stage.source? with
  | some q =>
    obtain ⟨-, -, hplacement, -, hpending⟩ := next_of_source? hsource
    rw [hplacement]
    exact hw.pending p (by simp [hpending, hp])
  | none =>
    cases hstage : w.stage with
    | preparing =>
      rw [next_preparing hstage, stage_moved] at hp
      split at hp <;> cases hp
    | givenUp => simp [next_givenUp hstage, Stage.pending] at hp
    | listing =>
      rw [next_listing hstage] at hp ⊢
      exact (hw.mem_sources_iff.1 hp).1
    | copying rest =>
      cases rest with
      | nil => simp [next_copying_nil hstage, Stage.pending] at hp
      | cons q rest => simp [hstage, Stage.source?] at hsource
    | waiting previous => simp [next_waiting hstage, Stage.pending] at hp
    | refreshed previous =>
      rw [next_refreshed hstage] at hp ⊢
      -- a change that asks for a copy is of a file that the snapshot recorded
      obtain ⟨t, hentry, -⟩ := mem_changesSince.1 hp
      exact ((Snapshot.mem_entries_on hw.apart.wellFormed hw.fits.library).1 hentry).1
    | applying current rest =>
      cases rest with
      | nil => simp [next_applying_nil hstage, Stage.pending] at hp
      | cons c rest =>
        rw [next_applying_cons hstage] at hp ⊢
        refine hw.pending p ?_
        rw [hstage]
        show p ∈ (c :: rest).filterMap Change.source?
        exact (List.sublist_cons_self c rest).filterMap _ |>.subset hp

theorem sane_next (hw : Sane root storage w) : Sane root storage w.next where
  apart := by
    obtain ⟨deeds, hdeeds, hwithin⟩ := does_next hw
    exact hw.apart.of_does hdeeds hwithin
  fits := by
    rcases placement_next hw with hplacement | ⟨-, hplacement⟩
    · rw [hplacement]
      exact hw.fits
    · rw [hplacement]
      exact ⟨library_on w.disk root, hw.fits.buckets⟩
  root_eq := by
    rcases placement_next hw with hplacement | ⟨-, hplacement⟩
    · rw [hplacement]
      exact hw.root_eq
    · rw [hplacement]
      rfl
  pending := fun _ hp => canList_of_pending_next hw hp

theorem sane_of_runs (hw : Sane root storage w) (h : Runs root storage w w') :
    Sane root storage w' := by
  induction h with
  | here => exact hw
  | step _ ih => exact sane_next ih
  | edit _ hedit ih => exact sane_edited ih hedit

/-! ### Copies along a run -/

/-- The step that copies a source changes its copy at most, and makes it hold what the source
holds, or fails. -/
theorem holds_next_of_source? (hw : Sane root storage w) (hsource : w.stage.source? = some q)
    (hp : Listable root p) :
    (p ≠ q → ((Placement.whole root storage).Holds w.next.disk p ↔
      (Placement.whole root storage).Holds w.disk p)) ∧
      (w.next.failed = false → (Placement.whole root storage).Holds w.next.disk q) := by
  obtain ⟨hdisk, hfailed, hplacement, -, hpending⟩ := next_of_source? hsource
  have hq : w.placement.sets.CanList q := hw.pending q (by simp [hpending])
  refine ⟨fun hne => ?_, fun hunfailed => ?_⟩
  · obtain ⟨deeds, hdeeds, hserve⟩ := Placement.does_copyFile (m := w.placement) q w.host
    rw [hdisk]
    exact holds_of_serves hw.apart hw.fits hw.root_eq hq hp hne hdeeds hserve
  · rw [hfailed, Bool.or_eq_false_iff, fails, Bool.not_eq_false'] at hunfailed
    obtain ⟨hanswer, hafter⟩ := Placement.copyFile_eq w.placement q w.host
    rw [hafter] at hdisk
    rw [hanswer] at hunfailed
    rw [hw.holds_iff hq, hdisk]
    refine holds_of_copyRead hw.fits hq hunfailed.2 fun bytes hread => ?_
    -- the source is as it was when it was read
    rw [← hdisk, Disk.readFile_iff_version, version?_next hw (hw.listable hq)]
    exact Disk.readFile_iff_version.1 hread

/-- An edit that leaves a source as it is leaves its copy. -/
theorem holds_edited (hw : Sane root storage w) (he : Edit root storage w e) (hp : Listable root p)
    (hversion : e.version? p = w.disk.version? p) :
    (Placement.whole root storage).Holds e p ↔ (Placement.whole root storage).Holds w.disk p := by
  obtain ⟨q, tail, hq, -, hcomponents⟩ :=
    destination_of_canList (fits_whole root storage) (canList_whole hp)
  refine Placement.holds_congr hversion ?_ ?_
  · intro r loc hr
    obtain rfl : q = r := Option.some.inj (hq.symm.trans hr)
    rw [Disk.reaches_below he.apart.linkFree hcomponents,
      Disk.reaches_below hw.apart.linkFree hcomponents]
    simp only [he.place]
  · intro r loc hr hloc bytes t mode
    obtain rfl : q = r := Option.some.inj (hq.symm.trans hr)
    obtain ⟨base, hbase, rfl⟩ := (Disk.reaches_below hw.apart.linkFree hcomponents).1 hloc
    rw [he.storage base hbase]

end GemCourier.Sync
