/-
GemCourier/Proofs/Sync/Following.lean

Which edits a watched sync follows, and which it misses.

A poll takes its snapshot before it copies, so a file that is edited while it is
copied has another time at the next poll and is copied again.  The first
snapshot is taken after the pass, and what was edited between the pass and this
snapshot is recorded there as if it had been copied.  Such a version is missed:
it is never copied, until it is edited again.

`Follows` is what holds of every later moment.  A source whose time the latest
snapshot has is still to be copied, or its copy is in place, or its version was
missed.  A missed version is one that the snapshots go on knowing, so that its
copy stays as it is.

Main result: `follows_of_runs`.
-/
import GemCourier.Proofs.Sync.Edits

namespace GemCourier.Sync

variable {root storage p : Path} {b w : Moment} {e : Disk} {s : Snapshot}

/-- `Missed b d p`: the first snapshot, taken at the moment `b`, recorded the version of `p`
that there is on the disk, and the copy of `p` did not hold it then. -/
def Missed (b : Moment) (d : Disk) (p : Path) : Prop :=
  p ∈ sourcesOn b.disk b.placement.sets ∧ d.version? p = b.disk.version? p ∧
    ¬ b.placement.Holds b.disk p

/-- What holds of every moment after the first snapshot, where `s` is the latest one. -/
structure Follows (root storage : Path) (b : Moment) (s : Snapshot) (w : Moment) : Prop where
  known : w.stage.snapshot? = some s
  remembered : b.disk ∈ w.history
  seen : ∀ p t, Listable root p → s.time? p = some t →
    ∃ d ∈ w.history, ∃ bytes, d.version? p = some (bytes, t)
  held : w.failed = false → ∀ p bytes t, Listable root p → s.time? p = some t →
    w.disk.version? p = some (bytes, t) →
    p ∈ w.stage.pending ∨ (Placement.whole root storage).Holds w.disk p ∨ Missed b w.disk p
  missed : ∀ p, Missed b w.disk p → w.placement.sets.CanList p ∧ p ∉ w.stage.pending ∧
    ¬ (Placement.whole root storage).Holds w.disk p ∧
    ∃ bytes t, w.disk.version? p = some (bytes, t) ∧ s.time? p = some t

theorem Missed.listable (hb : Sane root storage b) (h : Missed b e p) : Listable root p :=
  hb.listable (hb.mem_sources_iff.1 h.1).1

/-- A version that was missed is a version of a file. -/
theorem Missed.exists_version (h : Missed b e p) :
    ∃ bytes t, e.version? p = some (bytes, t) ∧ b.disk.version? p = some (bytes, t) := by
  obtain ⟨bytes, t, hversion⟩ := Disk.isFile_iff_version.1 (isFile_of_mem h.1)
  exact ⟨bytes, t, h.2.1.trans hversion, hversion⟩

theorem Missed.congr {d : Disk} (h : Missed b d p) (hversion : e.version? p = d.version? p) :
    Missed b e p :=
  ⟨h.1, hversion.trans h.2.1, h.2.2⟩

/-! ### The first snapshot -/

open Moment

/-- When the first snapshot has been taken, what it recorded is in place or missed. -/
theorem follows_first (hb : Sane root storage b) (hstage : b.stage = .copying []) :
    Follows root storage b (Snapshot.on b.disk b.placement.sets) b.next := by
  have hdisk : b.next.disk = b.disk := disk_next_of_source? (by rw [hstage]; rfl) (by simp [hstage])
  have hplacement : b.next.placement = b.placement := by
    rw [next_copying_nil hstage, placement_moved]
  have hmem : b.disk ∈ b.next.history := by
    rw [next_copying_nil hstage]
    exact List.mem_cons_of_mem _ List.mem_cons_self
  have hpending : b.next.stage.pending = [] := by
    rw [next_copying_nil hstage, stage_moved]
    rfl
  refine ⟨by rw [next_copying_nil hstage, stage_moved]; rfl, hmem, ?_, ?_, ?_⟩
  · intro p t hp ht
    obtain ⟨-, bytes, hversion⟩ := (hb.time?_iff hp).1 ht
    exact ⟨b.disk, hmem, bytes, hversion⟩
  · intro _ p bytes t hp ht hversion
    rw [hdisk] at hversion ⊢
    obtain ⟨hlist, -⟩ := (hb.time?_iff hp).1 ht
    have hfile := Disk.isFile_iff_version.2 ⟨bytes, t, hversion⟩
    -- what was recorded without having been copied is missed from now on
    by_cases hholds : (Placement.whole root storage).Holds b.disk p
    · exact Or.inr (Or.inl hholds)
    · refine Or.inr (Or.inr ⟨hb.mem_sources_iff.2 ⟨hlist, hfile⟩, rfl, ?_⟩)
      rwa [← hb.holds_iff hlist]
  · intro p hmissed
    rw [hdisk] at hmissed ⊢
    rw [hplacement, hpending]
    have hlist := (hb.mem_sources_iff.1 hmissed.1).1
    obtain ⟨bytes, t, -, hversion⟩ := hmissed.exists_version
    refine ⟨hlist, by simp, ?_, bytes, t, hversion, ?_⟩
    · rw [hb.holds_iff hlist]
      exact hmissed.2.2
    · exact (hb.time?_iff (hmissed.listable hb)).2 ⟨hlist, bytes, hversion⟩

/-! ### Steps and edits after it -/

theorem Follows.remembered_next (h : Follows root storage b s w) : b.disk ∈ w.next.history := by
  rw [history_next]
  exact List.mem_cons_of_mem _ h.remembered

theorem Follows.seen_next (h : Follows root storage b s w) {t : Int} (hp : Listable root p)
    (ht : s.time? p = some t) :
    ∃ d ∈ w.next.history, ∃ bytes, d.version? p = some (bytes, t) := by
  obtain ⟨d, hd, hversion⟩ := h.seen p t hp ht
  rw [history_next]
  exact ⟨d, List.mem_cons_of_mem _ hd, hversion⟩

/-- A step that changes neither the disk nor the latest snapshot nor what is to be copied keeps
what holds, if what was missed can still be listed. -/
theorem Follows.quiet (h : Follows root storage b s w) (hdisk : w.next.disk = w.disk)
    (hknown : w.next.stage.snapshot? = w.stage.snapshot?)
    (hpending : w.next.stage.pending = w.stage.pending)
    (hlist : ∀ p, Missed b w.disk p → w.next.placement.sets.CanList p) :
    Follows root storage b s w.next where
  known := hknown.trans h.known
  remembered := h.remembered_next
  seen := fun _ _ => h.seen_next
  held := by
    rw [hdisk, hpending]
    exact fun hok => h.held ((remembers_next w).2 hok)
  missed := by
    rw [hdisk, hpending]
    intro p hmissed
    obtain ⟨-, hrest⟩ := h.missed p hmissed
    exact ⟨hlist p hmissed, hrest⟩

/-- A step that copies a source: the source is in place afterwards, and what was missed is not
copied. -/
theorem Follows.copied {q : Path} (hb : Sane root storage b) (hw : Sane root storage w)
    (h : Follows root storage b s w) (hsource : w.stage.source? = some q) :
    Follows root storage b s w.next := by
  obtain ⟨-, -, hplacement, hknown, hpending⟩ := next_of_source? hsource
  have hmissed : ∀ p, Missed b w.next.disk p → Missed b w.disk p := by
    intro p hp
    exact hp.congr (version?_next hw (hp.listable hb)).symm
  refine ⟨hknown.trans h.known, h.remembered_next, fun _ _ => h.seen_next, ?_, ?_⟩
  · intro hok p bytes t hp ht hversion
    have hsame := version?_next hw hp
    -- the source of the step is in place now, and the others are as they were
    by_cases hpq : p = q
    · subst hpq
      exact Or.inr (Or.inl ((holds_next_of_source? hw hsource hp).2 hok))
    · rcases h.held ((remembers_next w).2 hok) p bytes t hp ht (hsame ▸ hversion) with
        hrest | hholds | hmiss
      · rw [hpending, List.mem_cons] at hrest
        exact Or.inl (hrest.resolve_left hpq)
      · exact Or.inr (Or.inl (((holds_next_of_source? hw hsource hp).1 hpq).2 hholds))
      · exact Or.inr (Or.inr (hmiss.congr hsame))
  · intro p hp
    have hlistable := hp.listable hb
    obtain ⟨hlist, hrest, hholds, bytes, t, hversion, ht⟩ := h.missed p (hmissed p hp)
    rw [hpending, List.mem_cons, not_or] at hrest
    refine ⟨hplacement ▸ hlist, hrest.2, ?_, bytes, t, ?_, ht⟩
    · rw [(holds_next_of_source? hw hsource hlistable).1 hrest.1]
      exact hholds
    · rw [version?_next hw hlistable, hversion]

/-- The step that takes the snapshot of a poll: what has another time than before is to be
copied, and what was missed has the time that it had. -/
theorem Follows.captured (hb : Sane root storage b) (hw : Sane root storage w)
    (h : Follows root storage b s w) (hstage : w.stage = .refreshed s) :
    Follows root storage b (Snapshot.on w.disk w.placement.sets) w.next := by
  have hdisk : w.next.disk = w.disk := disk_next_of_source? (by rw [hstage]; rfl) (by simp [hstage])
  have hnone : w.stage.pending = [] := by
    rw [hstage]
    rfl
  have hpending : ∀ p, p ∈ w.next.stage.pending ↔ ∃ t,
      (w.placement.sets.CanList p ∧ ∃ bytes, w.disk.version? p = some (bytes, t)) ∧
        s.time? p ≠ some t := by
    intro p
    rw [next_refreshed hstage, stage_moved]
    refine mem_changesSince.trans ?_
    simp only [Snapshot.mem_entries_on hw.apart.wellFormed hw.fits.library]
  have hmem : w.disk ∈ w.next.history := by
    rw [history_next]
    exact List.mem_cons_of_mem _ List.mem_cons_self
  refine ⟨by rw [next_refreshed hstage, stage_moved]; rfl, h.remembered_next, ?_, ?_, ?_⟩
  · intro p t hp ht
    obtain ⟨-, bytes, hversion⟩ := (hw.time?_iff hp).1 ht
    exact ⟨w.disk, hmem, bytes, hversion⟩
  · intro hok p bytes t hp ht hversion
    have hunfailed := (remembers_next w).2 hok
    rw [hdisk] at hversion ⊢
    obtain ⟨hlist, -⟩ := (hw.time?_iff hp).1 ht
    -- a time that the last snapshot had was dealt with, and any other is a change
    by_cases hbefore : s.time? p = some t
    · rcases h.held hunfailed p bytes t hp hbefore hversion with hrest | hplaced
      · rw [hnone] at hrest
        cases hrest
      · exact Or.inr hplaced
    · exact Or.inl ((hpending p).2 ⟨t, ⟨hlist, bytes, hversion⟩, hbefore⟩)
  · intro p hp
    rw [hdisk] at hp ⊢
    obtain ⟨hlist, -, hholds, bytes, t, hversion, ht⟩ := h.missed p hp
    refine ⟨?_, ?_, hholds, bytes, t, hversion, ?_⟩
    · rwa [next_refreshed hstage, placement_moved]
    · intro hmem
      -- a missed source would have to have another time than it has
      obtain ⟨t', ⟨-, bytes', hversion'⟩, hne⟩ := (hpending p).1 hmem
      rw [hversion] at hversion'
      cases hversion'
      exact hne ht
    · exact (hw.time?_iff (hp.listable hb)).2 ⟨hlist, bytes, hversion⟩

theorem follows_next (hb : Sane root storage b) (hw : Sane root storage w)
    (h : Follows root storage b s w) : ∃ s', Follows root storage b s' w.next := by
  cases hsource : w.stage.source? with
  | some q => exact ⟨s, h.copied hb hw hsource⟩
  | none =>
    have hknown := h.known
    cases hstage : w.stage with
    | preparing => rw [hstage] at hknown; cases hknown
    | givenUp => rw [hstage] at hknown; cases hknown
    | listing => rw [hstage] at hknown; cases hknown
    | copying rest => rw [hstage] at hknown; cases hknown
    | waiting previous =>
      have hnext := next_waiting hstage
      refine ⟨s, h.quiet ?_ ?_ ?_ ?_⟩
      · exact disk_next_of_source? hsource (by simp [hstage])
      · simp [hnext, hstage, Stage.snapshot?]
      · simp [hnext, hstage, Stage.pending]
      · -- the library that holds a missed source is there
        intro p hp
        obtain ⟨bytes, t, hversion, -⟩ := hp.exists_version
        have hfile := Disk.isFile_iff_version.2 ⟨bytes, t, hversion⟩
        rw [hnext, placement_placed, refresh_eq hw.fits, hw.root_eq]
        exact canList_on hw.apart.wellFormed (hp.listable hb) hfile
    | refreshed previous =>
      obtain rfl : previous = s := by
        rw [hstage] at hknown
        exact Option.some.inj hknown
      -- the snapshot that the poll compares with is the latest one
      exact ⟨_, h.captured hb hw hstage⟩
    | applying current rest =>
      have hdisk := disk_next_of_source? hsource (by simp [hstage])
      cases rest with
      | nil =>
        have hnext := next_applying_nil hstage
        refine ⟨s, h.quiet hdisk ?_ ?_ ?_⟩
        · simp [hnext, hstage, Stage.snapshot?]
        · simp [hnext, hstage, Stage.pending]
        · intro p hp
          rw [hnext]
          exact (h.missed p hp).1
      | cons c rest =>
        have hnext := next_applying_cons hstage
        have hnone : c.source? = none := by rwa [hstage] at hsource
        refine ⟨s, h.quiet hdisk ?_ ?_ ?_⟩
        · simp [hnext, hstage, Stage.snapshot?]
        · simp [hnext, hstage, Stage.pending, hnone]
        · intro p hp
          rw [hnext]
          exact (h.missed p hp).1

/-- An edit keeps what holds: a time that the latest snapshot has was seen, so a file that has
it now had it before. -/
theorem follows_edited (hb : Sane root storage b) (hw : Sane root storage w)
    (h : Follows root storage b s w) (he : Edit root storage w e) :
    Follows root storage b s (w.edited e) := by
  refine ⟨h.known, List.mem_cons_of_mem _ h.remembered, ?_, ?_, ?_⟩
  · intro p t hp ht
    obtain ⟨d, hd, hversion⟩ := h.seen p t hp ht
    exact ⟨d, List.mem_cons_of_mem _ hd, hversion⟩
  · intro hok p bytes t hp ht hversion
    obtain ⟨d, hd, bytes', hseen⟩ := h.seen p t hp ht
    have hbefore := he.version?_of_seen hp hd hseen hversion
    have hsame : e.version? p = w.disk.version? p := hversion.trans hbefore.symm
    rcases h.held hok p bytes t hp ht hbefore with hrest | hholds | hmiss
    · exact Or.inl hrest
    · exact Or.inr (Or.inl ((holds_edited hw he hp hsame).2 hholds))
    · exact Or.inr (Or.inr (hmiss.congr hsame))
  · intro p hp
    obtain ⟨bytes, t, hversion, hfirst⟩ := hp.exists_version
    have hlistable := hp.listable hb
    -- the first snapshot saw this time, so the edit did not bring it: it was there before
    have hbefore := he.version?_of_seen hlistable h.remembered hfirst hversion
    have hsame : e.version? p = w.disk.version? p := hversion.trans hbefore.symm
    obtain ⟨hlist, hrest, hholds, _, t', hversion', ht⟩ :=
      h.missed p (hp.congr hsame.symm)
    refine ⟨hlist, hrest, ?_, bytes, t, hversion, ?_⟩
    · show ¬ (Placement.whole root storage).Holds e p
      rw [holds_edited hw he hlistable hsame]
      exact hholds
    · rw [hbefore] at hversion'
      cases hversion'
      exact ht

theorem follows_of_runs (hb : Sane root storage b) (hw : Sane root storage w)
    (h : Follows root storage b s w) {w' : Moment} (hruns : Runs root storage w w') :
    ∃ s', Follows root storage b s' w' := by
  induction hruns with
  | here => exact ⟨s, h⟩
  | step hruns ih =>
    obtain ⟨s', h'⟩ := ih
    exact follows_next hb (sane_of_runs hw hruns) h'
  | edit hruns hedit ih =>
    obtain ⟨s', h'⟩ := ih
    exact ⟨s', follows_edited hb (sane_of_runs hw hruns) h' hedit⟩

end GemCourier.Sync
