/-
GemCourier/Proofs/Sync/Changes.lean

What the changes between two snapshots say.

A snapshot is read as a map: `time?` gives the time that it has for a path,
whatever the path is spelled like.  However a snapshot was put together, it
records no path twice, and recording a path or taking one away is seen at that
path only.  What happened to a path between two snapshots is then a matter of
the two times that they have for it.

The changes are as many as it takes to get from the earlier map to the later
one.  Applying one of them brings the time of its path up to date and leaves all
others alone, so applying them all gives the later map.

Main result: `changesSince_ofList`.
-/
import Mathlib.Data.List.Pairwise
import GemCourier.Proofs.Sync.Snapshots

namespace GemCourier

theorem Path.sameAs_iff {p q : Path} : p.sameAs q = true ↔ p.components = q.components := by
  rw [sameAs, beq_iff_eq]

namespace Sync

namespace Snapshot

variable {s previous current : Snapshot} {p q : Path} {t t' : Int}

/-! ### Snapshots as maps -/

/-- No path is recorded twice. -/
def Distinct (s : Snapshot) : Prop :=
  s.entries.Pairwise fun e f => Disk.Differ e.1 f.1

/-- The snapshot without a path. -/
def without (s : Snapshot) (p : Path) : Snapshot :=
  ⟨s.entries.filter fun e => !e.1.sameAs p⟩

theorem time?_congr (h : p.components = q.components) : s.time? p = s.time? q := by
  have hsame : (fun e : Path × Int => e.1.sameAs p) = fun e => e.1.sameAs q := by
    funext e
    rw [Path.sameAs, Path.sameAs, h]
  rw [time?, entry?, hsame, time?, entry?]

theorem time?_eq_none :
    s.time? p = none ↔ ∀ e ∈ s.entries, e.1.components ≠ p.components := by
  simp [time?, entry?, Path.sameAs]

theorem exists_of_time? (h : s.time? p = some t) :
    ∃ q, (q, t) ∈ s.entries ∧ q.components = p.components := by
  obtain ⟨⟨q, _⟩, hfind, rfl⟩ := Option.map_eq_some_iff.1 h
  exact ⟨q, List.mem_of_find?_eq_some hfind, Path.sameAs_iff.1 (List.find?_some hfind :)⟩

instance : Std.Symm fun e f : Path × Int => Disk.Differ e.1 f.1 :=
  ⟨fun _ _ hdiffer => Ne.symm hdiffer⟩

/-- Two entries of one path are one entry. -/
theorem Distinct.eq_of_mem (hs : s.Distinct) {e f : Path × Int} (he : e ∈ s.entries)
    (hf : f ∈ s.entries) (h : e.1.components = f.1.components) : e = f := by
  by_contra hne
  exact List.Pairwise.forall hs he hf hne h

theorem Distinct.time?_of_mem (hs : s.Distinct) (h : (q, t) ∈ s.entries) : s.time? q = some t := by
  cases htime : s.time? q with
  | none => exact absurd rfl (time?_eq_none.1 htime _ h)
  | some t' =>
    obtain ⟨r, hr, hsame⟩ := exists_of_time? htime
    rw [(Prod.mk.inj (hs.eq_of_mem hr h hsame)).2]

/-- Taking a path away is seen at that path only. -/
theorem time?_without (s : Snapshot) (p q : Path) :
    (s.without p).time? q = if p.components = q.components then none else s.time? q := by
  rw [time?, entry?, without, List.find?_filter]
  by_cases h : p.components = q.components
  · simp [Path.sameAs, h]
  · rw [if_neg h, time?, entry?]
    congr 2
    funext e
    by_cases he : e.1.components = q.components <;> simp [Path.sameAs, he, Ne.symm h]

/-- A path that is recorded goes to the end, in the spelling that it has already. -/
theorem exists_insert (s : Snapshot) (p : Path) (t : Int) :
    ∃ q, q.components = p.components ∧ s.insert p t = ⟨(s.without p).entries ++ [(q, t)]⟩ := by
  refine ⟨((s.entry? p).map (·.1)).getD p, ?_, rfl⟩
  cases hfind : s.entry? p with
  | none => rfl
  | some e => exact Path.sameAs_iff.1 (List.find?_some hfind :)

/-- Recording a path is seen at that path only. -/
theorem time?_insert (s : Snapshot) (p q : Path) (t : Int) :
    (s.insert p t).time? q = if p.components = q.components then some t else s.time? q := by
  obtain ⟨r, hr, hinsert⟩ := exists_insert s p t
  have hfront := time?_without s p q
  rw [time?, entry?] at hfront
  rw [hinsert, time?, entry?, List.find?_append, Option.map_or, hfront]
  by_cases h : p.components = q.components
  · simp [Path.sameAs, hr, h]
  · simp [Path.sameAs, hr, h]

theorem Distinct.insert (hs : s.Distinct) (p : Path) (t : Int) : (s.insert p t).Distinct := by
  obtain ⟨r, hr, hinsert⟩ := exists_insert s p t
  rw [hinsert, Distinct, List.pairwise_append]
  refine ⟨hs.sublist List.filter_sublist, List.pairwise_singleton _ _, ?_⟩
  intro e he f hf
  obtain rfl := List.mem_singleton.1 hf
  have hne := (List.mem_filter.1 he).2
  rw [Disk.Differ, hr]
  simpa [Path.sameAs] using hne

theorem distinct_ofList (entries : List (Path × Int)) : (ofList entries).Distinct := by
  have haux : ∀ s : Snapshot, s.Distinct →
      (entries.foldl (fun s e => s.insert e.1 e.2) s).Distinct := by
    induction entries with
    | nil => exact fun _ hs => hs
    | cons e rest ih => exact fun s hs => ih _ (hs.insert e.1 e.2)
  exact haux empty .nil

/-! ### What is reported on a path -/

/-- A change of the kind is reported on the path, however the path is spelled. -/
def Reported (changes : List Change) (kind : ChangeKind) (p : Path) : Prop :=
  ∃ q, ⟨kind, q⟩ ∈ changes ∧ q.components = p.components

/-- What happened to a path, by the times that it had before and has after. -/
def kindBetween? : Option Int → Option Int → Option ChangeKind
  | none, none => none
  | none, some _ => some .new
  | some _, none => some .deleted
  | some before, some after => if before = after then none else some .modified

theorem changeOf?_eq_some {e : Path × Int} {c : Change} :
    changeOf? previous e = some c ↔
      c.path = e.1 ∧ kindBetween? (previous.time? e.1) (some e.2) = some c.kind := by
  obtain ⟨kind, q⟩ := c
  unfold changeOf?
  cases previous.time? e.1 with
  | none => simp [kindBetween?, eq_comm, and_comm]
  | some before =>
    by_cases h : before = e.2
    · simp [kindBetween?, h]
    · simp [kindBetween?, h, eq_comm, and_comm]

/-- What is new or modified is reported in the order of the entries, in their spelling. -/
theorem upserts_sublist (entries : List (Path × Int)) :
    ((entries.filterMap (changeOf? previous)).map (·.path)).Sublist (entries.map (·.1)) := by
  induction entries with
  | nil => exact .slnil
  | cons e rest ih =>
    cases hchange : changeOf? previous e with
    | none =>
      rw [List.filterMap_cons_none hchange]
      exact ih.cons e.1
    | some c =>
      rw [List.filterMap_cons_some hchange, List.map_cons, (changeOf?_eq_some.1 hchange).1]
      exact ih.cons_cons e.1

theorem mem_paths : q ∈ s.paths ↔ ∃ t, (q, t) ∈ s.entries := by
  rw [paths, List.mem_map]
  constructor
  · rintro ⟨⟨_, t⟩, he, rfl⟩
    exact ⟨t, he⟩
  · rintro ⟨t, he⟩
    exact ⟨(q, t), he, rfl⟩

theorem mem_deletions {c : Change} :
    c ∈ (previous.paths.filter fun p => (current.time? p).isNone).map (⟨.deleted, ·⟩) ↔
      c.kind = .deleted ∧ c.path ∈ previous.paths ∧ current.time? c.path = none := by
  obtain ⟨kind, q⟩ := c
  simp only [List.mem_map, List.mem_filter, Option.isNone_iff_eq_none, Change.mk.injEq]
  constructor
  · rintro ⟨r, ⟨hr, hnone⟩, rfl, rfl⟩
    exact ⟨rfl, hr, hnone⟩
  · rintro ⟨rfl, hq, hnone⟩
    exact ⟨q, ⟨hq, hnone⟩, rfl, rfl⟩

/-- A change says what happened to its path, which the later snapshot has, or the earlier one
if the later one does not. -/
theorem mem_changesSince_iff (hcurrent : current.Distinct) {c : Change} :
    c ∈ current.changesSince previous ↔
      kindBetween? (previous.time? c.path) (current.time? c.path) = some c.kind ∧
        (c.path ∈ current.paths ∨ c.path ∈ previous.paths ∧ current.time? c.path = none) := by
  rw [changesSince, List.mem_append, List.mem_filterMap, mem_deletions]
  constructor
  · rintro (⟨⟨q, t⟩, he, hchange⟩ | ⟨hkind, hmem, hnone⟩)
    · obtain ⟨hpath, hkind⟩ := changeOf?_eq_some.1 hchange
      rw [hpath, hcurrent.time?_of_mem he]
      exact ⟨hkind, Or.inl (mem_paths.2 ⟨t, he⟩)⟩
    · refine ⟨?_, Or.inr ⟨hmem, hnone⟩⟩
      obtain ⟨t, he⟩ := mem_paths.1 hmem
      cases htime : previous.time? c.path with
      | none => exact absurd rfl (time?_eq_none.1 htime _ he)
      | some before => rw [hnone, hkind]; rfl
  · rintro ⟨hkind, hmem | ⟨hmem, hnone⟩⟩
    · obtain ⟨t, he⟩ := mem_paths.1 hmem
      rw [hcurrent.time?_of_mem he] at hkind
      exact Or.inl ⟨_, he, changeOf?_eq_some.2 ⟨rfl, hkind⟩⟩
    · refine Or.inr ⟨?_, hmem, hnone⟩
      rw [hnone] at hkind
      cases htime : previous.time? c.path with
      | none => rw [htime] at hkind; cases hkind
      | some before => rw [htime] at hkind; exact (Option.some.inj hkind).symm

/-- What is reported on a path is what happened to it. -/
theorem reported_iff (hcurrent : current.Distinct) {kind : ChangeKind} :
    Reported (current.changesSince previous) kind p ↔
      kindBetween? (previous.time? p) (current.time? p) = some kind := by
  constructor
  · rintro ⟨q, hmem, hsame⟩
    rw [← time?_congr hsame, ← time?_congr hsame]
    exact ((mem_changesSince_iff hcurrent).1 hmem).1
  · intro hkind
    -- one of the snapshots has the path, in a spelling of its own
    have hspelled : ∃ q, q.components = p.components ∧
        (q ∈ current.paths ∨ q ∈ previous.paths ∧ current.time? q = none) := by
      cases hafter : current.time? p with
      | some t =>
        obtain ⟨q, hq, hsame⟩ := exists_of_time? hafter
        exact ⟨q, hsame, Or.inl (mem_paths.2 ⟨t, hq⟩)⟩
      | none =>
        cases hbefore : previous.time? p with
        | none => rw [hbefore, hafter] at hkind; cases hkind
        | some t =>
          obtain ⟨q, hq, hsame⟩ := exists_of_time? hbefore
          exact ⟨q, hsame, Or.inr ⟨mem_paths.2 ⟨t, hq⟩, (time?_congr hsame).trans hafter⟩⟩
    obtain ⟨q, hsame, hmem⟩ := hspelled
    refine ⟨q, (mem_changesSince_iff hcurrent).2 ⟨?_, hmem⟩, hsame⟩
    rwa [time?_congr hsame, time?_congr hsame]

/-- No path is reported twice. -/
theorem pairwise_changesSince (hprevious : previous.Distinct) (hcurrent : current.Distinct) :
    (current.changesSince previous).Pairwise fun c c' => Disk.Differ c.path c'.path := by
  rw [changesSince, List.pairwise_append]
  refine ⟨?_, ?_, ?_⟩
  · refine List.Pairwise.filterMap _ ?_ hcurrent
    intro e f hdiffer c hc c' hc'
    rw [Disk.Differ, (changeOf?_eq_some.1 hc).1, (changeOf?_eq_some.1 hc').1]
    exact hdiffer
  · rw [List.pairwise_map]
    exact (List.pairwise_map.2 hprevious).sublist List.filter_sublist
  · -- what is gone is not recorded any more
    intro c hc c' hc' hsame
    obtain ⟨e, he, hchange⟩ := List.mem_filterMap.1 hc
    rw [(changeOf?_eq_some.1 hchange).1] at hsame
    exact time?_eq_none.1 (mem_deletions.1 hc').2.2 e he hsame

/-! ### From the earlier snapshot to the later one -/

/-- The snapshot after a change: without a path that is gone, and with the time that `current`
has for one that is new or modified. -/
def updated (current s : Snapshot) (c : Change) : Snapshot :=
  if c.kind = .deleted then s.without c.path
  else match current.time? c.path with
    | some t => s.insert c.path t
    | none => s

/-- The snapshot after some changes, one after the other. -/
def patched (current s : Snapshot) (changes : List Change) : Snapshot :=
  changes.foldl current.updated s

/-- A change brings the time of its path up to date, if it is one of a path that is gone where
the later snapshot does not have it. -/
theorem time?_updated {c : Change} (hc : c.kind = .deleted ↔ current.time? c.path = none) :
    (current.updated s c).time? p =
      if c.path.components = p.components then current.time? p else s.time? p := by
  unfold updated
  by_cases hkind : c.kind = .deleted
  · rw [if_pos hkind, time?_without]
    by_cases hsame : c.path.components = p.components
    · rw [if_pos hsame, if_pos hsame, ← time?_congr hsame, hc.1 hkind]
    · rw [if_neg hsame, if_neg hsame]
  · obtain ⟨t, htime⟩ := Option.ne_none_iff_exists'.1 (mt hc.2 hkind)
    rw [if_neg hkind, htime]
    dsimp only
    rw [time?_insert]
    by_cases hsame : c.path.components = p.components
    · rw [if_pos hsame, if_pos hsame, ← time?_congr hsame, htime]
    · rw [if_neg hsame, if_neg hsame]

/-- Changes that mention every path that is not up to date bring the snapshot up to date. -/
theorem time?_patched {changes : List Change}
    (hchanges : ∀ c ∈ changes, c.kind = .deleted ↔ current.time? c.path = none)
    (hp : s.time? p = current.time? p ∨ ∃ c ∈ changes, c.path.components = p.components) :
    (current.patched s changes).time? p = current.time? p := by
  induction changes generalizing s with
  | nil =>
    rcases hp with hp | ⟨c, hc, -⟩
    · exact hp
    · cases hc
  | cons c rest ih =>
    have hstep := time?_updated (s := s) (p := p) (hchanges c (by simp))
    refine ih (fun c' hc' => hchanges c' (by simp [hc'])) ?_
    by_cases hsame : c.path.components = p.components
    · rw [if_pos hsame] at hstep
      exact Or.inl hstep
    · rw [if_neg hsame] at hstep
      rcases hp with hp | ⟨c', hc', hsame'⟩
      · exact Or.inl (hstep.trans hp)
      · rcases List.mem_cons.1 hc' with rfl | hc'
        · exact absurd hsame' hsame
        · exact Or.inr ⟨c', hc', hsame'⟩

theorem kindBetween?_eq_none {before after : Option Int} :
    kindBetween? before after = none ↔ before = after := by
  cases before <;> cases after <;> simp [kindBetween?]

theorem kindBetween?_eq_deleted {before after : Option Int} :
    kindBetween? before after = some .deleted ↔ (∃ t, before = some t) ∧ after = none := by
  cases before <;> cases after <;> simp [kindBetween?]

/-- The changes bring the earlier snapshot up to date. -/
theorem time?_patched_changesSince (hcurrent : current.Distinct) (p : Path) :
    (current.patched previous (current.changesSince previous)).time? p = current.time? p := by
  refine time?_patched (fun c hc => ?_) ?_
  · obtain ⟨hkind, hmem⟩ := (mem_changesSince_iff hcurrent).1 hc
    constructor
    · intro hdeleted
      rw [hdeleted] at hkind
      exact (kindBetween?_eq_deleted.1 hkind).2
    · intro hnone
      -- a path that is not there any more has a time in the earlier snapshot only
      rw [hnone] at hkind
      cases hbefore : previous.time? c.path with
      | none => rw [hbefore] at hkind; cases hkind
      | some t => rw [hbefore] at hkind; exact (Option.some.inj hkind).symm
  · cases hkind : kindBetween? (previous.time? p) (current.time? p) with
    | none => exact Or.inl (kindBetween?_eq_none.1 hkind)
    | some kind =>
      obtain ⟨q, hq, hsame⟩ := (reported_iff hcurrent).2 hkind
      exact Or.inr ⟨_, hq, hsame⟩

/-- Nothing is reported exactly if both snapshots have the same times for the same paths. -/
theorem changesSince_eq_nil_iff (hcurrent : current.Distinct) :
    current.changesSince previous = [] ↔ ∀ p, current.time? p = previous.time? p := by
  constructor
  · intro hnil p
    refine (kindBetween?_eq_none.1 (Option.eq_none_iff_forall_ne_some.2 fun kind hkind => ?_)).symm
    obtain ⟨q, hq, -⟩ := (reported_iff (p := p) hcurrent).2 hkind
    rw [hnil] at hq
    cases hq
  · intro hsame
    refine List.eq_nil_iff_forall_not_mem.2 fun c hc => ?_
    have hkind := ((mem_changesSince_iff hcurrent).1 hc).1
    rw [hsame, kindBetween?_eq_none.2 rfl] at hkind
    cases hkind

/-- Between any two snapshots that were put together from lists of paths and times, the changes
report no path twice and lead from the earlier one to the later one.  New is what only the later
one has, modified what both have with different times, deleted what only the earlier one has.
What is new or modified comes first, in the order of the later one, and then what is deleted, in
the order of the earlier one.  Nothing is reported exactly if both have the same times for the
same paths. -/
theorem changesSince_ofList (earlier later : List (Path × Int)) :
    let previous := ofList earlier
    let current := ofList later
    let changes := current.changesSince previous
    (changes.Pairwise fun c c' => c.path.components ≠ c'.path.components) ∧
    (∀ p, (current.patched previous changes).time? p = current.time? p) ∧
    (∀ p, Reported changes .new p ↔ previous.time? p = none ∧ ∃ t, current.time? p = some t) ∧
    (∀ p, Reported changes .modified p ↔ ∃ before after, previous.time? p = some before ∧
      current.time? p = some after ∧ before ≠ after) ∧
    (∀ p, Reported changes .deleted p ↔ (∃ t, previous.time? p = some t) ∧ current.time? p = none) ∧
    (∃ upserts deletions, changes = upserts ++ deletions ∧
      (∀ c ∈ upserts, c.kind = .new ∨ c.kind = .modified) ∧ (∀ c ∈ deletions, c.kind = .deleted) ∧
      (upserts.map (·.path)).Sublist current.paths ∧
      (deletions.map (·.path)).Sublist previous.paths) ∧
    (changes = [] ↔ ∀ p, current.time? p = previous.time? p) := by
  intro previous current changes
  have hprevious : previous.Distinct := distinct_ofList earlier
  have hcurrent : current.Distinct := distinct_ofList later
  refine ⟨pairwise_changesSince hprevious hcurrent, time?_patched_changesSince hcurrent, ?_, ?_, ?_,
    ?_, changesSince_eq_nil_iff hcurrent⟩
  · intro p
    rw [reported_iff hcurrent]
    cases previous.time? p <;> cases current.time? p <;> simp [kindBetween?]
  · intro p
    rw [reported_iff hcurrent]
    cases previous.time? p <;> cases current.time? p <;> simp [kindBetween?]
  · exact fun p => (reported_iff hcurrent).trans kindBetween?_eq_deleted
  · refine ⟨_, _, rfl, ?_, fun c hc => (mem_deletions.1 hc).1, ?_, ?_⟩
    · intro c hc
      obtain ⟨e, -, hchange⟩ := List.mem_filterMap.1 hc
      have hkind := (changeOf?_eq_some.1 hchange).2
      cases hc : c.kind with
      | new => exact Or.inl rfl
      | modified => exact Or.inr rfl
      | deleted => rw [hc, kindBetween?_eq_deleted] at hkind; cases hkind.2
    · exact upserts_sublist current.entries
    · rw [List.map_map]
      show ((previous.paths.filter _).map id).Sublist previous.paths
      rw [List.map_id]
      exact List.filter_sublist

example :
    (ofList [(⟨"b"⟩, 1), (⟨"a"⟩, 1), (⟨"./b"⟩, 3), (⟨"c"⟩, 4), (⟨"b/"⟩, 5)]).changesSince
      (ofList [(⟨"d"⟩, 1), (⟨"a"⟩, 1), (⟨"b"⟩, 2)]) =
    [⟨.new, ⟨"./b"⟩⟩, ⟨.new, ⟨"c"⟩⟩, ⟨.modified, ⟨"b"⟩⟩, ⟨.deleted, ⟨"d"⟩⟩] := by
  decide

end Snapshot
end Sync
end GemCourier
