/-
GemCourier/Proofs/Sync/Snapshots.lean

What a snapshot knows, and what two of them tell apart.

The version of a path is what a file there holds and when it changed last.  A
scan lists no path twice, so a snapshot records each listed path with the time
of its version, and looking a path up finds that time.  The changes between two
snapshots then ask for a copy of exactly those recorded paths whose time the
earlier one does not have.

Main results: `time?_on`, `mem_changesSince`.
-/
import GemCourier.Proofs.Sync.Listing
import GemCourier.Sync.Snapshot

namespace GemCourier

namespace Disk

variable {d : Disk} {p : Path} {bytes : ByteArray} {t : Int}

/-- What the file holds that the path leads to, and the time of its last change. -/
def version? (d : Disk) (p : Path) : Option (ByteArray × Int) :=
  match d.node p with
  | .ok (.file bytes modified _) => some (bytes, modified)
  | _ => none

theorem version?_eq_some : d.version? p = some (bytes, t) ↔ ∃ mode, d.node p = .ok (.file bytes t mode) := by
  unfold version?
  split
  · next b t' mode hnode =>
    rw [hnode]
    simp
  · next hother =>
    simp only [reduceCtorEq, false_iff, not_exists]
    intro mode hnode
    exact hother bytes t mode hnode

theorem isFile_iff_version : d.isFile p = true ↔ ∃ bytes t, d.version? p = some (bytes, t) := by
  simp only [isFile_iff, version?_eq_some]

theorem readFile_iff_version : d.readFile p = .ok bytes ↔ ∃ t, d.version? p = some (bytes, t) := by
  simp only [readFile_ok_iff, version?_eq_some]

/-- The time of a file is that of its version. -/
theorem modified_of_isFile (h : d.isFile p = true) :
    d.modified p = .ok t ↔ ∃ bytes, d.version? p = some (bytes, t) := by
  obtain ⟨bytes, t', mode, hnode⟩ := isFile_iff.1 h
  simp only [modified, hnode, Except.map, version?_eq_some, Except.ok.injEq, Node.file.injEq]
  constructor
  · rintro rfl
    exact ⟨bytes, mode, rfl, rfl, rfl⟩
  · rintro ⟨_, _, _, ht, _⟩
    exact ht

end Disk

namespace Sync

variable {d : Disk} {sets : SourceSets} {p : Path} {t : Int}

namespace Snapshot

variable {previous current : Snapshot}

/-! ### What a snapshot records -/

/-- Recording paths that are not the same place one after the other only lists them. -/
theorem ofList_eq {entries : List (Path × Int)}
    (h : entries.Pairwise fun e f => Disk.Differ e.1 f.1) : ofList entries = ⟨entries⟩ := by
  have haux : ∀ front : List (Path × Int),
      (front ++ entries).Pairwise (fun e f => Disk.Differ e.1 f.1) →
      entries.foldl (fun s e => s.insert e.1 e.2) (⟨front⟩ : Snapshot) = ⟨front ++ entries⟩ := by
    clear h
    induction entries with
    | nil => simp
    | cons e rest ih =>
      intro front hpairwise
      -- no entry in front is the same place, so the new one keeps its spelling
      have hnew : ∀ f ∈ front, f.1.sameAs e.1 = false := by
        intro f hf
        have hdiffer := (List.pairwise_append.1 hpairwise).2.2 f hf e (by simp)
        simpa [Path.sameAs] using show f.1.components ≠ e.1.components from hdiffer
      have hinsert : Snapshot.insert ⟨front⟩ e.1 e.2 = ⟨front ++ [e]⟩ := by
        have hnone : front.find? (fun f => f.1.sameAs e.1) = none := by
          simpa using hnew
        have hkept : front.filter (fun f => !f.1.sameAs e.1) = front := by
          rw [List.filter_eq_self]
          simpa using hnew
        simp [Snapshot.insert, entry?, hnone, hkept]
      rw [List.foldl_cons, hinsert, ih _ (by simpa using hpairwise)]
      simp
  simpa [ofList, empty] using haux [] h

theorem mem_timesOn {files : List Path} :
    (p, t) ∈ timesOn d files ↔ p ∈ files ∧ d.modified p = .ok t := by
  unfold timesOn
  rw [List.mem_filterMap]
  constructor
  · rintro ⟨q, hq, he⟩
    split at he
    · next time htime =>
      cases he
      exact ⟨hq, htime⟩
    · cases he
  · rintro ⟨hp, htime⟩
    exact ⟨p, hp, by rw [htime]⟩

/-- The snapshot of a project lists the times of its sources. -/
theorem entries_on (hd : d.WellFormed)
    (hlibrary : ∀ l, sets.library = some l → l = SourceSets.candidate sets.root) :
    (Snapshot.on d sets).entries = timesOn d (sourcesOn d sets) := by
  rw [Snapshot.on, ofList_eq]
  unfold timesOn
  refine List.Pairwise.filterMap _ ?_ (pairwise_sourcesOn hd hlibrary)
  intro q q' hdiffer e he e' he'
  split at he
  · cases he
    split at he'
    · cases he'
      exact hdiffer
    · cases he'
  · cases he

theorem mem_entries_on (hd : d.WellFormed)
    (hlibrary : ∀ l, sets.library = some l → l = SourceSets.candidate sets.root) :
    (p, t) ∈ (Snapshot.on d sets).entries ↔
      sets.CanList p ∧ ∃ bytes, d.version? p = some (bytes, t) := by
  rw [entries_on hd hlibrary, mem_timesOn, mem_sourcesOn_iff hd hlibrary]
  constructor
  · rintro ⟨⟨hlist, hfile⟩, htime⟩
    exact ⟨hlist, (Disk.modified_of_isFile hfile).1 htime⟩
  · rintro ⟨hlist, bytes, hversion⟩
    have hfile := Disk.isFile_iff_version.2 ⟨bytes, t, hversion⟩
    exact ⟨⟨hlist, hfile⟩, (Disk.modified_of_isFile hfile).2 ⟨bytes, hversion⟩⟩

/-- The time that a snapshot has for a path is the one of its version, if the scan listed it. -/
theorem time?_on (hd : d.WellFormed)
    (hlibrary : ∀ l, sets.library = some l → l = SourceSets.candidate sets.root)
    (hp : Listable sets.root p) :
    (Snapshot.on d sets).time? p = some t ↔
      sets.CanList p ∧ ∃ bytes, d.version? p = some (bytes, t) := by
  -- an entry that is the same place is one of the same path
  have hfound : ∀ {e}, (Snapshot.on d sets).entries.find? (fun e => e.1.sameAs p) = some e →
      e ∈ (Snapshot.on d sets).entries ∧ e.1 = p := by
    intro e hfind
    have hmem := List.mem_of_find?_eq_some hfind
    have hsame : e.1.sameAs p = true := by simpa using List.find?_some hfind
    have hlist := ((mem_entries_on hd hlibrary).1 (show (e.1, e.2) ∈ _ from hmem)).1
    exact ⟨hmem, hlist.listable.eq_of_components hp (by simpa [Path.sameAs] using hsame)⟩
  rw [← mem_entries_on hd hlibrary, time?, entry?]
  constructor
  · intro h
    obtain ⟨⟨q, t'⟩, hfind, rfl⟩ := Option.map_eq_some_iff.1 h
    obtain ⟨hmem, rfl⟩ := hfound hfind
    exact hmem
  · intro h
    cases hfind : (Snapshot.on d sets).entries.find? fun e => e.1.sameAs p with
    | none =>
      have := List.find?_eq_none.1 hfind _ h
      simp [Path.sameAs] at this
    | some e =>
      obtain ⟨q, t'⟩ := e
      obtain ⟨hmem, rfl⟩ := hfound hfind
      -- the entry found and the one that is there are of the same path, so of one version
      obtain ⟨-, bytes, hversion⟩ := (mem_entries_on hd hlibrary).1 h
      obtain ⟨-, bytes', hversion'⟩ := (mem_entries_on hd hlibrary).1 hmem
      rw [hversion] at hversion'
      cases hversion'
      rfl

/-- Nothing changes from a snapshot to the same snapshot. -/
theorem changesSince_on (hd : d.WellFormed)
    (hlibrary : ∀ l, sets.library = some l → l = SourceSets.candidate sets.root) :
    (Snapshot.on d sets).changesSince (Snapshot.on d sets) = [] := by
  have htime : ∀ e ∈ (Snapshot.on d sets).entries,
      (Snapshot.on d sets).time? e.1 = some e.2 := by
    intro e he
    have hentry := (mem_entries_on hd hlibrary).1 (show (e.1, e.2) ∈ _ from he)
    exact (time?_on hd hlibrary hentry.1.listable).2 hentry
  rw [changesSince, List.append_eq_nil_iff, List.filterMap_eq_nil_iff, List.map_eq_nil_iff,
    List.filter_eq_nil_iff]
  refine ⟨fun e he => ?_, fun p hp => ?_⟩
  · rw [changeOf?, htime e he]
    exact if_pos rfl
  · obtain ⟨e, he, rfl⟩ := List.mem_map.1 hp
    rw [htime e he]
    simp

end Snapshot

/-! ### What changes ask for -/

/-- The path that a change asks to copy. -/
def Change.source? (c : Change) : Option Path :=
  if c.kind = .deleted then none else some c.path

/-- The changes between two snapshots ask for copies of what the later one records with a time
that the earlier one does not have. -/
theorem mem_changesSince {current previous : Snapshot} :
    p ∈ (current.changesSince previous).filterMap Change.source? ↔
      ∃ t, (p, t) ∈ current.entries ∧ previous.time? p ≠ some t := by
  -- a file that is gone asks for no copy
  have hdeleted : ∀ gone : List Path,
      (gone.map fun q => (⟨.deleted, q⟩ : Change)).filterMap Change.source? = [] := by
    intro gone
    rw [List.filterMap_map, List.filterMap_eq_nil_iff]
    exact fun _ _ => rfl
  have hchange : ∀ e : Path × Int, (Snapshot.changeOf? previous e).bind Change.source? = some p ↔
      e.1 = p ∧ previous.time? p ≠ some e.2 := by
    rintro ⟨q, t⟩
    unfold Snapshot.changeOf?
    cases hbefore : previous.time? q with
    | none =>
      simp only [Option.bind_some, Change.source?, reduceCtorEq, if_false, Option.some.injEq]
      constructor
      · rintro rfl
        exact ⟨rfl, by rw [hbefore]; simp⟩
      · exact And.left
    | some before =>
      by_cases hsame : before = t
      · simp only [hsame, if_true, Option.bind_none, reduceCtorEq, false_iff, not_and]
        rintro rfl hne
        exact hne (hsame ▸ hbefore)
      · simp only [hsame, if_false, Option.bind_some, Change.source?, reduceCtorEq,
          Option.some.injEq]
        constructor
        · rintro rfl
          exact ⟨rfl, by rw [hbefore]; simpa using hsame⟩
        · exact And.left
  rw [Snapshot.changesSince, List.filterMap_append, hdeleted, List.append_nil,
    List.filterMap_filterMap, List.mem_filterMap]
  constructor
  · rintro ⟨⟨q, t⟩, he, hsource⟩
    obtain ⟨rfl, hne⟩ := (hchange _).1 hsource
    exact ⟨t, he, hne⟩
  · rintro ⟨t, he, hne⟩
    exact ⟨(p, t), he, (hchange _).2 ⟨rfl, hne⟩⟩

end Sync

end GemCourier
