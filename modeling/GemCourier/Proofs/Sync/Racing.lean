/-
GemCourier/Proofs/Sync/Racing.lean

A watch whose project is edited while it scans and copies.

A scan comes upon one source after the other and reads their times one by one, and
a copy reads its source before it stores it.  With edits in between, a snapshot
may be one of no disk that there was, and what is stored may be out of date when
it is.  `Scanning` goes through a scan, and `Races` are the runs in which the
scans of polls and their copies take their time.

Two things are still certain.  Whatever time a snapshot has was the time of its
path at some instant of the scan, so a file that has this time later on has been
what it is since then (`Edits.version?_of_seen`).  And a file that was edited
after it was read has a time that the snapshot does not have, so only a copy of
what there still is counts as one.

Main results: `races_of_runs`, `sane_of_races`, `follows_of_races`.
-/
import GemCourier.Proofs.Sync.Changes
import GemCourier.Proofs.Sync.Following

namespace GemCourier.Sync

open Moment

variable {root storage p : Path} {b w v u : Moment} {s previous current : Snapshot}
  {files : List Path} {times : List (Path × Int)} {h : Host} {c : Change} {rest : List Change}

/-! ### Edits alone -/

/-- `Edits root storage w u`: edits and nothing else lead from the moment `w` to the moment `u`. -/
inductive Edits (root storage : Path) (w : Moment) : Moment → Prop
  | none : Edits root storage w w
  | more {u : Moment} {e : Disk} : Edits root storage w u → Edit root storage u e →
      Edits root storage w (u.edited e)

namespace Edits

theorem runs (h : Edits root storage w u) : Runs root storage w u := by
  induction h with
  | none => exact .here
  | more _ hedit ih => exact .edit ih hedit

theorem sane (h : Edits root storage w u) (hw : Sane root storage w) : Sane root storage u :=
  sane_of_runs hw h.runs

theorem keeps (h : Edits root storage w u) :
    u.placement = w.placement ∧ u.stage = w.stage ∧ u.failed = w.failed := by
  induction h with
  | none => exact ⟨rfl, rfl, rfl⟩
  | more _ _ ih => exact ih

theorem remembers (h : Edits root storage w u) {d : Disk} (hd : d ∈ w.history) : d ∈ u.history := by
  induction h with
  | none => exact hd
  | more _ _ ih => exact List.mem_cons_of_mem _ ih

/-- A version with a time that was seen before the edits was there before them. -/
theorem version?_of_seen (h : Edits root storage w u) (hp : Listable root p) {d : Disk}
    {bytes bytes' : ByteArray} {t : Int} (hd : d ∈ w.history)
    (hseen : d.version? p = some (bytes', t)) (hversion : u.disk.version? p = some (bytes, t)) :
    w.disk.version? p = some (bytes, t) := by
  induction h with
  | none => exact hversion
  | more hedits hedit ih =>
    exact ih (hedit.version?_of_seen hp (hedits.remembers hd) hseen hversion)

/-- What a watch keeps up is kept up by edits. -/
theorem follows (h : Edits root storage v u) (hb : Sane root storage b) (hv : Sane root storage v)
    (hfollows : Follows root storage b s v) : Follows root storage b s u := by
  induction h with
  | none => exact hfollows
  | more hedits hedit ih => exact follows_edited hb (hedits.sane hv) ih hedit

end Edits

/-! ### Scans that take their time -/

/-- `Scanning root storage w u files times`: the scan that a poll began at the moment `w` goes on
at the moment `u`.  It came upon `files`, whose times are still to be read, and has read `times`.
What is there when a time is read is a file, or there is nothing. -/
inductive Scanning (root storage : Path) (w : Moment) :
    Moment → List Path → List (Path × Int) → Prop
  | begun : Scanning root storage w w [] []
  | found {u : Moment} {files : List Path} {times : List (Path × Int)} {p : Path} :
      Scanning root storage w u files times → p ∈ sourcesOn u.disk w.placement.sets →
      Scanning root storage w u (files ++ [p]) times
  | timed {u : Moment} {files : List Path} {times : List (Path × Int)} {p : Path} :
      Scanning root storage w u (p :: files) times →
      (∀ t, u.disk.modified p = .ok t → u.disk.isFile p = true) →
      Scanning root storage w u files (times ++ Snapshot.timesOn u.disk [p])
  | edited {u : Moment} {files : List Path} {times : List (Path × Int)} {e : Disk} :
      Scanning root storage w u files times → Edit root storage u e →
      Scanning root storage w (u.edited e) files times

namespace Scanning

theorem edits (h : Scanning root storage w u files times) : Edits root storage w u := by
  induction h with
  | begun => exact .none
  | found _ _ ih => exact ih
  | timed _ _ ih => exact ih
  | edited _ hedit ih => exact .more ih hedit

/-- Nothing but sources is found. -/
theorem canList (h : Scanning root storage w u files times) (hw : Sane root storage w) :
    ∀ p ∈ files, w.placement.sets.CanList p := by
  induction h with
  | begun => simp
  | found hscan hp ih =>
    intro q hq
    rcases List.mem_append.1 hq with hq | hq
    · exact ih q hq
    · obtain rfl := List.mem_singleton.1 hq
      have hu := hscan.edits.sane hw
      rw [← hscan.edits.keeps.1] at hp ⊢
      exact (hu.mem_sources_iff.1 hp).1
  | timed _ _ ih => exact fun q hq => ih q (List.mem_cons_of_mem _ hq)
  | edited _ _ ih => exact ih

/-- A time that was read is one that the file had while the scan went on. -/
theorem seen (h : Scanning root storage w u files times) (hw : Sane root storage w) :
    ∀ entry ∈ times, w.placement.sets.CanList entry.1 ∧
      ∃ d ∈ u.history, ∃ bytes, d.version? entry.1 = some (bytes, entry.2) := by
  induction h with
  | begun => simp
  | found _ _ ih => exact ih
  | timed hscan hfile ih =>
    rintro ⟨q, t⟩ hentry
    rcases List.mem_append.1 hentry with hentry | hentry
    · exact ih _ hentry
    · obtain ⟨hq, htime⟩ := Snapshot.mem_timesOn.1 hentry
      obtain rfl := List.mem_singleton.1 hq
      refine ⟨hscan.canList hw _ List.mem_cons_self, _, List.mem_cons_self, ?_⟩
      exact (Disk.modified_of_isFile (hfile t htime)).1 htime
  | edited _ _ ih =>
    intro entry hentry
    obtain ⟨hlist, d, hd, hversion⟩ := ih entry hentry
    exact ⟨hlist, d, List.mem_cons_of_mem _ hd, hversion⟩

/-- A scan that is over at once has the times that the disk has. -/
theorem at_once (w : Moment) : Scanning root storage w w []
    (Snapshot.timesOn w.disk (sourcesOn w.disk w.placement.sets)) := by
  have hfound : ∀ files, (∀ p ∈ files, p ∈ sourcesOn w.disk w.placement.sets) →
      Scanning root storage w w files [] := by
    intro files
    induction files using List.reverseRecOn with
    | nil => exact fun _ => .begun
    | append_singleton files p ih =>
      intro hfiles
      exact .found (ih fun q hq => hfiles q (by simp [hq])) (hfiles p (by simp))
  have htimed : ∀ files times, (∀ p ∈ files, w.disk.isFile p = true) →
      Scanning root storage w w files times →
      Scanning root storage w w [] (times ++ Snapshot.timesOn w.disk files) := by
    intro files
    induction files with
    | nil =>
      intro times _ hscan
      simpa [Snapshot.timesOn] using hscan
    | cons p rest ih =>
      intro times hfiles hscan
      have hrest := ih _ (fun q hq => hfiles q (by simp [hq]))
        (hscan.timed fun _ _ => hfiles p (by simp))
      have hsplit : Snapshot.timesOn w.disk (p :: rest) =
          Snapshot.timesOn w.disk [p] ++ Snapshot.timesOn w.disk rest := by
        rw [← List.singleton_append, Snapshot.timesOn, List.filterMap_append]
        rfl
      rwa [hsplit, ← List.append_assoc]
  exact htimed _ [] (fun _ => isFile_of_mem) (hfound _ fun _ hp => hp)

end Scanning

/-! ### Snapshots of what is found -/

/-- A listable path is recorded as it is spelled. -/
theorem insert_of_listable {t : Int} (hs : ∀ entry ∈ s.entries, Listable root entry.1)
    (hp : Listable root p) : s.insert p t = ⟨(s.without p).entries ++ [(p, t)]⟩ := by
  have hspelling : ((s.entry? p).map (·.1)).getD p = p := by
    cases hfind : s.entry? p with
    | none => rfl
    | some entry =>
      have hsame := Path.sameAs_iff.1 (List.find?_some hfind :)
      exact (hs entry (List.mem_of_find?_eq_some hfind)).eq_of_components hp hsame
  rw [Snapshot.insert, hspelling]
  rfl

/-- What a snapshot of listable paths has was recorded. -/
theorem mem_of_mem_ofList (htimes : ∀ entry ∈ times, Listable root entry.1) :
    ∀ entry ∈ (Snapshot.ofList times).entries, entry ∈ times := by
  induction times using List.reverseRecOn with
  | nil => exact fun _ hentry => hentry
  | append_singleton times last ih =>
    have hfront := ih fun entry hentry => htimes entry (by simp [hentry])
    have hlistable : ∀ entry ∈ (Snapshot.ofList times).entries, Listable root entry.1 :=
      fun entry hentry => htimes entry (by simp [hfront entry hentry])
    have hlast : Snapshot.ofList (times ++ [last]) =
        ⟨((Snapshot.ofList times).without last.1).entries ++ [last]⟩ := by
      rw [Snapshot.ofList, List.foldl_append]
      exact insert_of_listable hlistable (htimes last (by simp))
    intro entry hentry
    rw [hlast] at hentry
    rcases List.mem_append.1 hentry with hentry | hentry
    · exact List.mem_append_left _ (hfront entry (List.mem_filter.1 hentry).1)
    · exact List.mem_append_right _ hentry

/-- A time that such a snapshot has for a listable path was recorded for it. -/
theorem mem_ofList_of_time? {t : Int} (htimes : ∀ entry ∈ times, Listable root entry.1)
    (hp : Listable root p) (ht : (Snapshot.ofList times).time? p = some t) :
    (p, t) ∈ (Snapshot.ofList times).entries := by
  obtain ⟨q, hq, hsame⟩ := Snapshot.exists_of_time? ht
  obtain rfl : q = p := (htimes _ (mem_of_mem_ofList htimes _ hq)).eq_of_components hp hsame
  exact hq

/-! ### Runs with races -/

namespace Moment

/-- The moment at which a poll has its snapshot. -/
def scanned (u : Moment) (h : Host) (previous current : Snapshot) : Moment :=
  u.moved h (.applying current (current.changesSince previous))

/-- The moment at which a poll has stored what it read of a source on the disk `d`. -/
def stored (u : Moment) (h : Host) (d : Disk) (p : Path) (current : Snapshot)
    (rest : List Change) : Moment :=
  (u.moved h (.applying current rest)).noting
    !((u.placement.copyRead d p).answer u.host).isOk

end Moment

/-- Whether the step that comes next in a poll takes its time. -/
def Stage.takesTime : Stage → Bool
  | refreshed _ => true
  | applying _ (c :: _) => c.source?.isSome
  | _ => false

/-- `Races root storage w w'`: steps of the program and edits lead from the moment `w` to the
moment `w'`, where edits also come during the scan of a poll, and after a copy has read its source
and before it stores it. -/
inductive Races (root storage : Path) (w : Moment) : Moment → Prop
  | here : Races root storage w w
  | step {v : Moment} : Races root storage w v → v.stage.takesTime = false →
      Races root storage w v.next
  | edit {v : Moment} {e : Disk} : Races root storage w v → Edit root storage v e →
      Races root storage w (v.edited e)
  | scan {v u : Moment} {previous : Snapshot} {times : List (Path × Int)} {h : Host} :
      Races root storage w v → v.stage = .refreshed previous →
      Scanning root storage v u [] times → h.disk = u.disk →
      Races root storage w (u.scanned h previous (Snapshot.ofList times))
  | copy {v u : Moment} {current : Snapshot} {c : Change} {rest : List Change} {p : Path}
      {h : Host} : Races root storage w v → v.stage = .applying current (c :: rest) →
      c.source? = some p → Edits root storage v u →
      h.disk = ((u.placement.copyRead v.disk p).after u.host).disk →
      Races root storage w (u.stored h v.disk p current rest)

/-- The step that takes the snapshot of a poll is a scan that is over at once. -/
theorem next_eq_scanned (hstage : w.stage = .refreshed previous) :
    w.next = w.scanned ((w.placement.detect previous).after w.host) previous
      (Snapshot.ofList (Snapshot.timesOn w.disk (sourcesOn w.disk w.placement.sets))) :=
  next_refreshed hstage

/-- The step that copies a source is a copy that stores at once what it read. -/
theorem next_eq_stored (hstage : w.stage = .applying current (c :: rest))
    (hc : c.source? = some p) :
    w.next = w.stored ((w.placement.applyOne c).after w.host) w.disk p current rest := by
  rw [next_applying_cons hstage, hc, stored, disk, ← (Placement.copyFile_eq w.placement p w.host).1]
  rfl

theorem Races.next (h : Races root storage w v) : Races root storage w v.next := by
  by_cases htime : v.stage.takesTime = true
  · cases hstage : v.stage with
    | refreshed previous =>
      rw [next_eq_scanned hstage]
      exact h.scan hstage (.at_once v) (disk_after_detect _ _)
    | applying current rest =>
      cases rest with
      | nil => simp [hstage, Stage.takesTime] at htime
      | cons c rest =>
        rw [hstage, Stage.takesTime] at htime
        obtain ⟨p, hc⟩ := Option.isSome_iff_exists.1 htime
        rw [next_eq_stored hstage hc]
        refine h.copy hstage hc .none ?_
        rw [disk_after_applyOne, hc, disk, ← (Placement.copyFile_eq v.placement p v.host).2]
    | _ => simp [hstage, Stage.takesTime] at htime
  · exact h.step (by simpa using htime)

/-- Runs whose steps are all taken at once are among those with races. -/
theorem races_of_runs (h : Runs root storage w u) : Races root storage w u := by
  induction h with
  | here => exact .here
  | step _ ih => exact ih.next
  | edit _ hedit ih => exact ih.edit hedit

theorem sane_scanned (hv : Sane root storage v) (hscan : Scanning root storage v u files times)
    (hdisk : h.disk = u.disk) :
    Sane root storage (u.scanned h previous (Snapshot.ofList times)) := by
  have hu := hscan.edits.sane hv
  refine ⟨by rw [scanned, disk_moved, hdisk]; exact hu.apart, hu.fits, hu.root_eq, ?_⟩
  intro p hp
  obtain ⟨t, hentry, -⟩ := mem_changesSince.1 hp
  have hlistable : ∀ entry ∈ times, Listable root entry.1 :=
    fun entry hentry => hv.listable (hscan.seen hv entry hentry).1
  rw [scanned, placement_moved, hscan.edits.keeps.1]
  exact (hscan.seen hv _ (mem_of_mem_ofList hlistable _ hentry)).1

/-- What a late copy does to the disk. -/
theorem does_stored {d : Disk} (hu : Sane root storage u)
    (hp : u.placement.sets.CanList p)
    (hdisk : h.disk = ((u.placement.copyRead d p).after u.host).disk) :
    ∃ deeds, u.disk.Does deeds h.disk ∧ (∀ deed ∈ deeds, Serves u.placement [p] deed) ∧
      ∀ deed ∈ deeds, deed.Within storage := by
  obtain ⟨deeds, hdeeds, hserve⟩ := Placement.does_copyRead (m := u.placement) d p u.host
  rw [← hdisk] at hdeeds
  refine ⟨deeds, hdeeds, fun deed hdeed => (hserve deed hdeed).1, fun deed hdeed => ?_⟩
  exact within_of_serves hu.fits hp (hserve deed hdeed).1

/-- A source that a poll is about to copy is one that can be listed, also after edits. -/
theorem canList_of_applying (hv : Sane root storage v)
    (hstage : v.stage = .applying current (c :: rest)) (hc : c.source? = some p)
    (hedits : Edits root storage v u) : u.placement.sets.CanList p := by
  have hsource : v.stage.source? = some p := by
    rw [hstage]
    exact hc
  obtain ⟨-, -, -, -, hpending⟩ := next_of_source? hsource
  rw [hedits.keeps.1]
  exact hv.pending p (by simp [hpending])

theorem sane_stored (hv : Sane root storage v) (hstage : v.stage = .applying current (c :: rest))
    (hc : c.source? = some p) (hedits : Edits root storage v u)
    (hdisk : h.disk = ((u.placement.copyRead v.disk p).after u.host).disk) :
    Sane root storage (u.stored h v.disk p current rest) := by
  have hu := hedits.sane hv
  have hlist := canList_of_applying hv hstage hc hedits
  obtain ⟨deeds, hdeeds, -, hwithin⟩ := does_stored hu hlist hdisk
  refine ⟨hu.apart.of_does hdeeds hwithin, hu.fits, hu.root_eq, fun q hq => ?_⟩
  refine hu.pending q ?_
  rw [hedits.keeps.2.1, hstage]
  show q ∈ (c :: rest).filterMap Change.source?
  exact (List.sublist_cons_self c rest).filterMap _ |>.subset hq

theorem sane_of_races (hw : Sane root storage w) (hraces : Races root storage w u) :
    Sane root storage u := by
  induction hraces with
  | here => exact hw
  | step _ _ ih => exact sane_next ih
  | edit _ hedit ih => exact sane_edited ih hedit
  | scan _ _ hscan hdisk ih => exact sane_scanned ih hscan hdisk
  | copy _ hstage hc hedits hdisk ih => exact sane_stored ih hstage hc hedits hdisk

/-! ### What a watch keeps up -/

/-- A scan that takes its time: a path with a time that the last snapshot had has been what it is
since then, and any other is to be copied. -/
theorem Follows.scanned (hnone : ∀ d p, ¬ Missed b d p) (hb : Sane root storage b)
    (hv : Sane root storage v) (hfollows : Follows root storage b s v)
    (hstage : v.stage = .refreshed s) (hscan : Scanning root storage v u files times)
    (hdisk : h.disk = u.disk) :
    Follows root storage b (Snapshot.ofList times) (u.scanned h s (Snapshot.ofList times)) := by
  have hlater := hscan.edits.follows hb hv hfollows
  have hseen := hscan.seen hv
  have hlistable : ∀ entry ∈ times, Listable root entry.1 :=
    fun entry hentry => hv.listable (hseen entry hentry).1
  have hdiskEq : (u.scanned h s (Snapshot.ofList times)).disk = u.disk := hdisk
  refine ⟨rfl, List.mem_cons_of_mem _ hlater.remembered, ?_, ?_, fun p hp => absurd hp (hnone _ p)⟩
  · intro p t hp ht
    have hentry := mem_of_mem_ofList hlistable _ (mem_ofList_of_time? hlistable hp ht)
    obtain ⟨-, d, hd, hversion⟩ := hseen _ hentry
    exact ⟨d, List.mem_cons_of_mem _ hd, hversion⟩
  · intro hok p bytes t hp ht hversion
    rw [hdiskEq] at hversion ⊢
    by_cases hbefore : s.time? p = some t
    · rcases hlater.held hok p bytes t hp hbefore hversion with hpending | hholds
      · rw [hscan.edits.keeps.2.1, hstage] at hpending
        cases hpending
      · exact Or.inr hholds
    · exact Or.inl (mem_changesSince.2 ⟨t, mem_ofList_of_time? hlistable hp ht, hbefore⟩)

/-- A copy that takes its time: a source that has the time of the snapshot when it is stored has
been what it is since before it was read. -/
theorem Follows.stored (hnone : ∀ d p, ¬ Missed b d p) (hb : Sane root storage b)
    (hv : Sane root storage v) (hfollows : Follows root storage b s v)
    (hstage : v.stage = .applying current (c :: rest)) (hc : c.source? = some p)
    (hedits : Edits root storage v u)
    (hdisk : h.disk = ((u.placement.copyRead v.disk p).after u.host).disk) :
    Follows root storage b s (u.stored h v.disk p current rest) := by
  have hu := hedits.sane hv
  have hlater := hedits.follows hb hv hfollows
  have hlist := canList_of_applying hv hstage hc hedits
  obtain ⟨deeds, hdeeds, hserve, hwithin⟩ := does_stored hu hlist hdisk
  have hsame : ∀ q, Listable root q → h.disk.version? q = u.disk.version? q :=
    (hu.apart.aside _ _ hdeeds hwithin).2
  have hknown : current = s := by
    have := hfollows.known
    rw [hstage] at this
    exact Option.some.inj this
  have hpending : u.stage.pending = p :: rest.filterMap Change.source? := by
    rw [hedits.keeps.2.1, hstage]
    show (c :: rest).filterMap Change.source? = _
    rw [List.filterMap_cons_some hc]
  refine ⟨congrArg some hknown, List.mem_cons_of_mem _ hlater.remembered, ?_, ?_,
    fun p hp => absurd hp (hnone _ p)⟩
  · intro q t hq ht
    obtain ⟨d, hd, hversion⟩ := hlater.seen q t hq ht
    exact ⟨d, List.mem_cons_of_mem _ hd, hversion⟩
  · intro hok q bytes t hq ht hversion
    obtain ⟨hunfailed, hcopied⟩ := Bool.or_eq_false_iff.1 hok
    have hversion' : u.disk.version? q = some (bytes, t) := (hsame q hq).symm.trans hversion
    by_cases hqp : q = p
    · subst hqp
      -- the time was seen before the source was read, so the bytes that were read are the ones now
      obtain ⟨d, hd, bytes', hseen⟩ := hfollows.seen q t hq ht
      have hread := hedits.version?_of_seen hq hd hseen hversion'
      refine Or.inr (Or.inl ((holds_whole hu.fits hu.root_eq hlist).2 ?_))
      rw [Bool.not_eq_false'] at hcopied
      have hheld := holds_of_copyRead hu.fits hlist hcopied fun bytes'' hbytes => ?_
      · rwa [← hdisk] at hheld
      · rw [Disk.readFile_iff_version.2 ⟨t, hread⟩] at hbytes
        cases hbytes
        rw [← hdisk]
        exact Disk.readFile_iff_version.2 ⟨t, hversion⟩
    · rcases hlater.held hunfailed q bytes t hq ht hversion' with hrest | hholds | hmissed
      · rw [hpending, List.mem_cons] at hrest
        exact Or.inl (hrest.resolve_left hqp)
      · refine Or.inr (Or.inl ?_)
        exact (holds_of_serves hu.apart hu.fits hu.root_eq hlist hq hqp hdeeds hserve).2 hholds
      · exact absurd hmissed (hnone _ _)

/-- What a watch keeps up is kept up in all runs with races, if nothing was missed. -/
theorem follows_of_races (hnone : ∀ d p, ¬ Missed b d p) (hb : Sane root storage b)
    (hw : Sane root storage w) (hfollows : Follows root storage b s w)
    (hraces : Races root storage w u) : ∃ s', Follows root storage b s' u := by
  induction hraces with
  | here => exact ⟨s, hfollows⟩
  | step hraces _ ih =>
    obtain ⟨s', h'⟩ := ih
    exact follows_next hb (sane_of_races hw hraces) h'
  | edit hraces hedit ih =>
    obtain ⟨s', h'⟩ := ih
    exact ⟨s', follows_edited hb (sane_of_races hw hraces) h' hedit⟩
  | scan hraces hstage hscan hdisk ih =>
    obtain ⟨s', h'⟩ := ih
    obtain rfl : _ = s' := Option.some.inj ((congrArg Stage.snapshot? hstage).symm.trans h'.known)
    exact ⟨_, h'.scanned hnone hb (sane_of_races hw hraces) hstage hscan hdisk⟩
  | copy hraces hstage hc hedits hdisk ih =>
    obtain ⟨s', h'⟩ := ih
    exact ⟨s', h'.stored hnone hb (sane_of_races hw hraces) hstage hc hedits hdisk⟩

end GemCourier.Sync
