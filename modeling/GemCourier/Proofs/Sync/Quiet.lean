/-
GemCourier/Proofs/Sync/Quiet.lean

A poll that reports nothing leaves the snapshot as it was, its order included.

The changes between two snapshots do not see in which order the files were
listed, the comparison of the snapshots does.  But a scan lists its sources in
the order of the places that their copies have on a storage, those of the root
in `home` and then those of the library in `lib`, each in the order of names.
This order depends on the paths alone and not on the disk, so snapshots of one
project that record the same times for the same paths list them alike, whatever
directories and libraries came and went in between.

Main results: `sourcesOn_ascends`, `entries_eq_of_time?_eq`, `quiet_iff_sameAs`.
-/
import GemCourier.Proofs.Sync.Coverage
import GemCourier.Proofs.Sync.Settling

namespace GemCourier.Sync

open Disk

variable {d d' : Disk} {sets : SourceSets} {root p q : Path} {tail tail' : List String}

/-! ### The order of a scan -/

/-- The path of a source tells the place of its copy. -/
theorem Placed.tail_eq (hp : Placed root p tail) (hp' : Placed root p tail') : tail = tail' := by
  rcases hp with ⟨n, hn, hp, rfl⟩ | ⟨names, hne, hp, rfl⟩
  · rcases hp' with ⟨m, _, hp', rfl⟩ | ⟨others, hothers, hp', rfl⟩
    · rw [hp, List.append_cancel_left_eq] at hp'
      rw [show n = m by simpa using hp']
    · rw [hp, List.append_cancel_left_eq] at hp'
      exact absurd (by simpa using (List.cons.inj hp').1) hn
  · rcases hp' with ⟨m, hm, hp', rfl⟩ | ⟨others, _, hp', rfl⟩
    · rw [hp, List.append_cancel_left_eq] at hp'
      exact absurd (by simpa using (List.cons.inj hp').1.symm) hm
    · rw [hp, List.append_cancel_left_eq] at hp'
      rw [show names = others by simpa [List.map_inj_right] using hp']

/-- Both paths are ones of sources, and the copy of the first one has the place that comes first in
the order of texts. -/
def Earlier (root p q : Path) : Prop :=
  ∃ tail tail', Placed root p tail ∧ Placed root q tail' ∧ tail < tail'

theorem Earlier.asymm (h : Earlier root p q) : ¬ Earlier root q p := by
  obtain ⟨tail, tail', hp, hq, hlt⟩ := h
  rintro ⟨other', other, hq', hp', hlt'⟩
  rw [hp'.tail_eq hp, hq'.tail_eq hq] at hlt'
  exact lt_asymm hlt hlt'

theorem ListableHome.placed (h : ListableHome root p) :
    ∃ n, p.components = root.components ++ [.name n] ∧ Placed root p ["home", n] := by
  obtain ⟨-, n, hn, rfl, hextension⟩ := h
  have hp := Path.components_child (p := root) hn
  exact ⟨n, hp, .home n (ne_library_of_extension hn hextension) hp rfl⟩

theorem ListableLibrary.placed (h : ListableLibrary root p) :
    ∃ names : List String,
      p.components = (SourceSets.candidate root).components ++ names.map .name ∧
      Placed root p ("lib" :: names) := by
  obtain ⟨names, hne, hnames, rfl, -⟩ := h
  have hp := Path.components_descend (p := SourceSets.candidate root) hnames
  refine ⟨names, hp, .library names hne ?_ rfl⟩
  rw [hp, components_candidate, List.append_assoc]
  rfl

/-- A scan lists one source after the other in the order of the places of their copies. -/
theorem sourcesOn_ascends (hd : d.WellFormed)
    (hlibrary : ∀ l, sets.library = some l → l = SourceSets.candidate sets.root) :
    (sourcesOn d sets).Pairwise (Earlier sets.root) := by
  -- names that come first behind one front come first behind the bucket as well
  have hcancel : ∀ {front : List Component} {names names' : List String},
      front ++ names.map .name = front ++ names'.map .name → names = names' := by
    intro front names names' heq
    rwa [List.append_cancel_left_eq, List.map_inj_right (by simp)] at heq
  rw [sourcesOn_eq, List.pairwise_append]
  refine ⟨?_, ?_, ?_⟩
  · refine (scripts_ascend hd sets).imp_of_mem ?_
    rintro p q hp hq ⟨names, others, hpc, hqc, hlt⟩
    obtain ⟨n, hpn, hplaced⟩ := ((mem_scripts hd hlibrary).1 hp).1.placed
    obtain ⟨m, hqm, hplaced'⟩ := ((mem_scripts hd hlibrary).1 hq).1.placed
    obtain rfl : names = [n] := hcancel (hpc.symm.trans hpn)
    obtain rfl : others = [m] := hcancel (hqc.symm.trans hqm)
    exact ⟨_, _, hplaced, hplaced', List.cons_lt_cons_iff.2 (Or.inr ⟨rfl, hlt⟩)⟩
  · cases hsome : sets.library with
    | none =>
      rw [belowLibrary, hsome]
      exact .nil
    | some library =>
      obtain rfl := hlibrary library hsome
      refine (belowLibrary_ascends hd hsome).imp_of_mem ?_
      rintro p q hp hq ⟨names, others, hpc, hqc, hlt⟩
      obtain ⟨ps, hps, hplaced⟩ := ((mem_belowLibrary hd hlibrary).1 hp).1.1.placed
      obtain ⟨qs, hqs, hplaced'⟩ := ((mem_belowLibrary hd hlibrary).1 hq).1.1.placed
      obtain rfl : names = ps := hcancel (hpc.symm.trans hps)
      obtain rfl : others = qs := hcancel (hqc.symm.trans hqs)
      exact ⟨_, _, hplaced, hplaced', List.cons_lt_cons_iff.2 (Or.inr ⟨rfl, hlt⟩)⟩
  · intro p hp q hq
    obtain ⟨n, -, hplaced⟩ := ((mem_scripts hd hlibrary).1 hp).1.placed
    obtain ⟨names, -, hplaced'⟩ := ((mem_belowLibrary hd hlibrary).1 hq).1.1.placed
    exact ⟨_, _, hplaced, hplaced', List.cons_lt_cons_iff.2 (Or.inl (by decide))⟩

/-! ### Snapshots with the same times -/

namespace Snapshot

variable {s t : Snapshot}

/-- The entries of a snapshot are in the order of a scan. -/
theorem entries_ascend (hd : d.WellFormed)
    (hlibrary : ∀ l, sets.library = some l → l = SourceSets.candidate sets.root) :
    (Snapshot.on d sets).entries.Pairwise fun e f => Earlier sets.root e.1 f.1 := by
  rw [entries_on hd hlibrary, timesOn]
  refine List.Pairwise.filterMap _ ?_ (sourcesOn_ascends hd hlibrary)
  intro p q hearlier e he f hf
  split at he
  · cases he
    split at hf
    · cases hf
      exact hearlier
    · cases hf
  · cases he

/-- Two snapshots of a project that have the same times for the same paths list the same entries in
the same order. -/
theorem entries_eq_of_time?_eq (hd : d.WellFormed) (hd' : d'.WellFormed)
    (htimes : ∀ p, (Snapshot.on d' (.on d' root)).time? p = (Snapshot.on d (.on d root)).time? p) :
    (Snapshot.on d' (.on d' root)).entries = (Snapshot.on d (.on d root)).entries := by
  have hascend : ∀ {e : Disk}, e.WellFormed →
      (Snapshot.on e (.on e root)).entries.Pairwise fun a b => Earlier root a.1 b.1 :=
    fun he => entries_ascend he (library_on _ root)
  have hnodup : ∀ {entries : List (Path × Int)},
      entries.Pairwise (fun a b => Earlier root a.1 b.1) → entries.Nodup := by
    intro entries h
    refine h.imp ?_
    rintro a _ hearlier rfl
    exact hearlier.asymm hearlier
  -- an entry of one is found by its path in the other, where it is spelled alike
  have hmem : ∀ {e e' : Disk}, e.WellFormed → e'.WellFormed →
      (∀ p, (Snapshot.on e (.on e root)).time? p = (Snapshot.on e' (.on e' root)).time? p) →
      ∀ entry ∈ (Snapshot.on e (.on e root)).entries,
        entry ∈ (Snapshot.on e' (.on e' root)).entries := by
    rintro e e' he he' hsame ⟨p, time⟩ hp
    have htime : (Snapshot.on e' (.on e' root)).time? p = some time := by
      rw [← hsame]
      exact (distinct_ofList _).time?_of_mem hp
    obtain ⟨q, hq, hcomponents⟩ := exists_of_time? htime
    have hplisted := ((mem_entries_on he (library_on e root)).1 hp).1.listable
    have hqlisted := ((mem_entries_on he' (library_on e' root)).1 hq).1.listable
    rwa [hqlisted.eq_of_components hplisted hcomponents] at hq
  refine List.Perm.eq_of_pairwise (fun _ _ _ _ h h' => absurd h' h.asymm) (hascend hd')
    (hascend hd) ?_
  rw [List.perm_ext_iff_of_nodup (hnodup (hascend hd')) (hnodup (hascend hd))]
  exact fun entry => ⟨hmem hd' hd htimes entry, hmem hd hd' (fun p => (htimes p).symm) entry⟩

theorem sameAs_refl (s : Snapshot) : s.sameAs s = true := by
  have hentries : ∀ entries, sameEntries entries entries = true := by
    intro entries
    induction entries with
    | nil => rfl
    | cons e rest ih => simp [sameEntries, Path.sameAs, ih]
  exact hentries s.entries

/-- Snapshots with the same entries have the same times. -/
theorem time?_of_sameAs (h : s.sameAs t = true) (p : Path) : s.time? p = t.time? p := by
  have hentries : ∀ {entries others : List (Path × Int)}, sameEntries entries others = true →
      (Snapshot.mk entries).time? p = (Snapshot.mk others).time? p := by
    intro entries
    induction entries with
    | nil =>
      intro others h
      cases others with
      | nil => rfl
      | cons f rest => cases h
    | cons e rest ih =>
      intro others h
      cases others with
      | nil => cases h
      | cons f rest' =>
        simp only [sameEntries, Bool.and_eq_true, beq_iff_eq, Path.sameAs_iff] at h
        obtain ⟨⟨hpath, htime⟩, hrest⟩ := h
        have hsame : e.1.sameAs p = f.1.sameAs p := by rw [Path.sameAs, Path.sameAs, hpath]
        have hih := ih hrest
        simp only [time?, entry?] at hih ⊢
        rw [List.find?_cons, List.find?_cons, hsame]
        cases f.1.sameAs p with
        | true => simp [htime]
        | false => exact hih
  exact hentries h

/-- Nothing has changed between two snapshots of a project exactly if they are the same, with their
entries in the same order. -/
theorem changesSince_on_eq_nil_iff (hd : d.WellFormed) (hd' : d'.WellFormed) (root : Path) :
    (Snapshot.on d' (.on d' root)).changesSince (Snapshot.on d (.on d root)) = [] ↔
      (Snapshot.on d (.on d root)).sameAs (Snapshot.on d' (.on d' root)) = true := by
  have hdistinct : (Snapshot.on d' (.on d' root)).Distinct := distinct_ofList _
  rw [changesSince_eq_nil_iff hdistinct]
  constructor
  · intro htimes
    rw [sameAs, entries_eq_of_time?_eq hd hd' htimes]
    exact sameAs_refl _
  · exact fun hsame p => (time?_of_sameAs hsame p).symm

end Snapshot

/-! ### Polls that report nothing -/

variable {m : Placement} {storage : Path}

/-- Something is printed about every change. -/
theorem Announced.ne_nil {c : Change} {lines : List Console.Line}
    (h : Announced m c lines) : lines ≠ [] := by
  cases h <;> simp

/-- A poll prints nothing exactly if it finds no change. -/
theorem Placement.printed_after_poll_iff {h : Host} (hfits : m.Fits storage)
    (hd : h.disk.WellFormed) (previous : Snapshot) :
    ((m.poll previous).after h).printed = h.printed ↔ m.changesOn previous h = [] := by
  constructor
  · intro hquiet
    obtain ⟨lines, hlines, hprinted⟩ := announced_poll hfits hd previous
    rw [hquiet, List.self_eq_append_right, List.flatten_eq_nil_iff] at hprinted
    rw [changesOn]
    generalize (Snapshot.on h.disk (m.refresh.answer h).sets).changesSince previous = changes
      at hlines ⊢
    cases hlines with
    | nil => rfl
    | cons hhere _ => exact absurd (hprinted _ (by simp)) hhere.ne_nil
  · exact fun hnil => (poll_of_settled hnil).2.2

/-- Resolves the sets of a project and takes a snapshot of it. -/
def Snapshot.resolved (root : Path) : Act Snapshot := do
  Snapshot.capture (← SourceSets.resolve root)

@[simp] theorem answer_resolved (root : Path) (h : Host) :
    (Snapshot.resolved root).answer h = Snapshot.on h.disk (.on h.disk root) := by
  rw [Snapshot.resolved, Act.answer_bind, Moment.answer_capture, answer_resolve,
    disk_after_resolve]

/-- Nothing has changed between two snapshots of a project, each taken over the sets that were
resolved with it, exactly if they are the same in the same order.  And a poll prints nothing exactly
if the snapshot that it answers is the same as the one before. -/
theorem quiet_iff_sameAs (root : Path) (h h' : Host) (hd : h.disk.WellFormed)
    (hd' : h'.disk.WellFormed) :
    (((Snapshot.resolved root).answer h').changesSince ((Snapshot.resolved root).answer h) = [] ↔
        ((Snapshot.resolved root).answer h).sameAs ((Snapshot.resolved root).answer h') = true) ∧
      ∀ (m : Placement) (storage : Path), m.Fits storage → m.sets.root = root →
        (((m.poll ((Snapshot.resolved root).answer h)).after h').printed = h'.printed ↔
          ((Snapshot.resolved root).answer h).sameAs
            ((m.poll ((Snapshot.resolved root).answer h)).answer h').2 = true) := by
  rw [answer_resolved, answer_resolved]
  have hiff := Snapshot.changesSince_on_eq_nil_iff hd hd' root
  refine ⟨hiff, fun m storage hfits hroot => ?_⟩
  have hsets := Placement.sets_refresh hfits h'
  rw [hroot] at hsets
  rw [Placement.printed_after_poll_iff hfits hd', Placement.changesOn, (Moment.poll_eq m _ h').1,
    hsets]
  exact hiff

/-- A poll that starts from sets without the library resolves them again, and prints nothing if the
snapshot before it had found the library. -/
theorem quiet_iff_sameAs_linkedHost :
    ((Snapshot.resolved ⟨"/p"⟩).answer linkedHost).sameAs
        ((Snapshot.resolved ⟨"/p"⟩).answer linkedHost) = true ∧
      ((Placement.poll ⟨SourceSets.on Placement.smallHost.disk ⟨"/p"⟩, Buckets.on ⟨"/s"⟩⟩
        ((Snapshot.resolved ⟨"/p"⟩).answer linkedHost)).after linkedHost).printed =
          linkedHost.printed := by
  have hd : linkedHost.disk.WellFormed := by decide
  have hfits := fits_on Placement.smallHost.disk ⟨"/p"⟩ ⟨"/s"⟩
  obtain ⟨hchanges, hpolls⟩ := quiet_iff_sameAs ⟨"/p"⟩ linkedHost linkedHost hd hd
  refine ⟨hchanges.1 ?_, (hpolls _ ⟨"/s"⟩ hfits rfl).2 ?_⟩
  · rw [answer_resolved]
    exact Snapshot.changesSince_on hd (library_on _ _)
  · rw [(Moment.poll_eq _ _ _).1, Placement.sets_refresh hfits, answer_resolved]
    exact Snapshot.sameAs_refl _

end GemCourier.Sync
