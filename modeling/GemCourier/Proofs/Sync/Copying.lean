/-
GemCourier/Proofs/Sync/Copying.lean

Copying one file, and some files one after the other.

A copy makes directories on the way to the destination of its source and writes
that destination, nothing else, and where it answers with a destination the
bytes of the source stand there.  When several files are copied, an earlier copy
is left alone by the later ones if their destinations are other files, and the
sources are left alone if no destination is one of them: `Separate` is what has
to hold of a disk for both.

Main results: `copyFile_ok`, `copyFiles_counts`, `copyFiles_held`.
-/
import GemCourier.Proofs.Host.Directory
import GemCourier.Sync.Copy

namespace GemCourier.Sync

/-- The deed serves to copy one of the sources: it makes a directory on the way to its
destination, or writes the destination. -/
def Serves (m : Placement) (sources : List Path) : Deed → Prop
  | .made p => ∃ s ∈ sources, ∃ q, m.destination? s = some q ∧
      p.components <+: q.components.dropLast
  | .wrote p _ => ∃ s ∈ sources, m.destination? s = some p

theorem Serves.mono {m : Placement} {sources more : List Path} (hmore : ∀ s ∈ sources, s ∈ more)
    {deed : Deed} (h : Serves m sources deed) : Serves m more deed := by
  cases deed with
  | made p =>
    obtain ⟨s, hs, hq⟩ := h
    exact ⟨s, hmore s hs, hq⟩
  | wrote p bytes =>
    obtain ⟨s, hs, hq⟩ := h
    exact ⟨s, hmore s hs, hq⟩

/-- What serves to copy some sources serves to copy one of them. -/
theorem Serves.exists_one {m : Placement} {sources : List Path} {deed : Deed}
    (h : Serves m sources deed) : ∃ s ∈ sources, Serves m [s] deed := by
  cases deed with
  | made p =>
    obtain ⟨s, hs, hq⟩ := h
    exact ⟨s, hs, s, List.mem_singleton_self s, hq⟩
  | wrote p bytes =>
    obtain ⟨s, hs, hq⟩ := h
    exact ⟨s, hs, s, List.mem_singleton_self s, hq⟩

namespace Placement

variable {m : Placement} {source q : Path} {h : Host} {bytes : ByteArray}

/-! ### One file -/

theorem does_store {allowed : Deed → Prop} {destination : Path}
    (hmade : ∀ p : Path, p.components <+: destination.components.dropLast → allowed (.made p))
    (hwrote : allowed (.wrote destination bytes)) :
    (store source destination bytes).Does allowed := by
  refine .bind (Directory.does_ensureParent hmade) fun answer => ?_
  cases answer with
  | error e => exact .pure _
  | ok _ =>
    refine .bind (.change (.wrote destination bytes) hwrote) fun answer => ?_
    cases answer with
    | error fault => exact .pure _
    | ok _ => exact .bind (.print _) fun _ => .pure _

theorem store_ok {destination : Path}
    (hok : (store source destination bytes).answer h = .ok ()) :
    ((store source destination bytes).after h).disk.readFile destination = .ok bytes := by
  cases hparent : (Directory.ensureParent destination).answer h with
  | error e => simp [store, hparent] at hok
  | ok _ =>
    cases hwrite :
        ((Directory.ensureParent destination).after h).disk.writeFile destination bytes with
    | error fault =>
      obtain ⟨hanswer, -⟩ := Act.change_error (f := (·.writeFile destination bytes)) hwrite
      simp [store, hparent, hanswer] at hok
    | ok d =>
      obtain ⟨hanswer, hafter⟩ := Act.change_ok (f := (·.writeFile destination bytes)) hwrite
      obtain ⟨_, _, _, _, _, _, hread⟩ := Disk.writeFile_ok hwrite
      simpa [store, hparent, hanswer, hafter] using hread

/-- Copies one file that was read on a disk, which may be another than the one it is stored to. -/
def copyRead (m : Placement) (d : Disk) (source : Path) :
    Act (Except CopyError (Option Path)) := do
  match m.destination? source with
  | none => return .ok none
  | some destination =>
    match d.readFile source with
    | .error fault => return .error (.read source fault)
    | .ok bytes => return (← store source destination bytes).map fun () => some destination

/-- A copy reads its source on the disk that it finds. -/
theorem copyFile_eq (m : Placement) (source : Path) (h : Host) :
    (m.copyFile source).answer h = (m.copyRead h.disk source).answer h ∧
      (m.copyFile source).after h = (m.copyRead h.disk source).after h := by
  unfold copyFile copyRead
  cases m.destination? source with
  | none => exact ⟨rfl, rfl⟩
  | some destination => exact ⟨rfl, rfl⟩

/-- A copy only does what serves it, and writes what was read. -/
theorem does_copyRead (d : Disk) (source : Path) :
    (m.copyRead d source).Does fun deed => Serves m [source] deed ∧
      ∀ q bytes, deed = .wrote q bytes → d.readFile source = .ok bytes := by
  unfold copyRead
  split
  · exact .pure _
  · next destination hdestination =>
    split
    · exact .pure _
    · next bytes hread =>
      refine .bind (does_store ?_ ?_) fun _ => .pure _
      · exact fun p hp => ⟨⟨source, by simp, destination, hdestination, hp⟩, by simp⟩
      · refine ⟨⟨source, by simp, hdestination⟩, ?_⟩
        rintro _ _ ⟨⟩
        exact hread

theorem does_copyFile (source : Path) : (m.copyFile source).Does (Serves m [source]) := by
  intro h
  rw [(copyFile_eq m source h).2]
  exact (does_copyRead h.disk source).mono (fun _ hdeed => hdeed.1) h

/-- Where a copy answers with a destination, the bytes that were read stand there. -/
theorem copyRead_ok {d : Disk} (hok : (m.copyRead d source).answer h = .ok (some q)) :
    m.destination? source = some q ∧ ∃ bytes, d.readFile source = .ok bytes ∧
      ((m.copyRead d source).after h).disk.readFile q = .ok bytes := by
  unfold copyRead at hok ⊢
  split at hok
  · simp at hok
  · next destination hdestination =>
    split at hok
    · simp at hok
    · next bytes hread =>
      simp only [Act.answer_bind, Act.answer_pure] at hok
      cases hstore : (store source destination bytes).answer h with
      | error e => simp [hstore, Except.map] at hok
      | ok _ =>
        obtain rfl : destination = q := by simpa [hstore, Except.map] using hok
        refine ⟨hdestination, bytes, hread, ?_⟩
        have hheld := store_ok hstore
        simpa [hdestination, hread] using hheld

theorem copyFile_ok (hok : (m.copyFile source).answer h = .ok (some q)) :
    m.destination? source = some q ∧ ∃ bytes, h.disk.readFile source = .ok bytes ∧
      ((m.copyFile source).after h).disk.readFile q = .ok bytes := by
  obtain ⟨hanswer, hafter⟩ := copyFile_eq m source h
  rw [hanswer] at hok
  rw [hafter]
  exact copyRead_ok hok

/-- A source that has a destination is copied there or gives a failure. -/
theorem copyRead_answers {d : Disk} (hq : m.destination? source = some q) :
    (m.copyRead d source).answer h = .ok (some q) ∨
      ∃ e, (m.copyRead d source).answer h = .error e := by
  cases hanswer : (m.copyRead d source).answer h with
  | error e => exact Or.inr ⟨e, rfl⟩
  | ok destination =>
    cases destination with
    | none =>
      simp only [copyRead, hq] at hanswer
      split at hanswer
      · simp at hanswer
      · next bytes _ =>
        cases hstore : (store source q bytes).answer h <;>
          simp [hstore, Except.map] at hanswer
    | some q' =>
      have hq' := (copyRead_ok hanswer).1
      rw [hq] at hq'
      exact Or.inl (by rw [hq'])

theorem copyFile_answers (hq : m.destination? source = some q) :
    (m.copyFile source).answer h = .ok (some q) ∨ ∃ e, (m.copyFile source).answer h = .error e := by
  rw [(copyFile_eq m source h).1]
  exact copyRead_answers hq

/-! ### Some files one after the other -/

/-- The report on one more file, in front of the report on others. -/
def counted (source : Path) (answer : Except CopyError (Option Path)) (r : PassReport) :
    PassReport :=
  match answer with
  | .ok (some _) => { r with copied := r.copied + 1 }
  | .ok none => r
  | .error e => { r with failures := (source, e) :: r.failures }

/-- A failure among the others is one in the report. -/
theorem mem_failures_counted {s source : Path} {answer : Except CopyError (Option Path)}
    {r : PassReport} (h : s ∈ r.failures.map (·.1)) :
    s ∈ (counted source answer r).failures.map (·.1) := by
  unfold counted
  split
  · exact h
  · exact h
  · exact List.mem_cons_of_mem _ h

/-- Copies one file and notes what came of it, as a pass over several files does. -/
def copyNoted (m : Placement) (source : Path) : Act (Except CopyError (Option Path)) := do
  match ← m.copyFile source with
  | .ok (some q) => return .ok (some q)
  | .ok none =>
    Act.note .debug s!"{source} is not eligible for sync"
    return .ok none
  | .error e =>
    Act.note .warn s!"Skipping {source}: {e.message (← Act.disk)}"
    return .error e

@[simp] theorem disk_after_copyNoted (m : Placement) (source : Path) (h : Host) :
    ((m.copyNoted source).after h).disk = ((m.copyFile source).after h).disk := by
  simp only [copyNoted, Act.after_bind]
  split <;> rfl

/-- Copying some files is copying the first and then the others. -/
theorem copyFiles_cons (m : Placement) (source : Path) (rest : List Path) (h : Host) :
    (m.copyFiles (source :: rest)).after h =
        (m.copyFiles rest).after ((m.copyNoted source).after h) ∧
      (m.copyFiles (source :: rest)).answer h = counted source ((m.copyFile source).answer h)
        ((m.copyFiles rest).answer ((m.copyNoted source).after h)) := by
  cases hanswer : (m.copyFile source).answer h with
  | error e => simp [copyFiles, copyNoted, counted, hanswer]
  | ok destination => cases destination <;> simp [copyFiles, copyNoted, counted, hanswer]

theorem does_copyFiles (sources : List Path) : (m.copyFiles sources).Does (Serves m sources) := by
  induction sources with
  | nil => exact .pure _
  | cons source rest ih =>
    intro h
    obtain ⟨deeds, hdeeds, hserve⟩ := does_copyFile (m := m) source h
    obtain ⟨more, hmore, hserve'⟩ := ih ((m.copyNoted source).after h)
    refine ⟨deeds ++ more, ?_, ?_⟩
    · rw [(copyFiles_cons m source rest h).1]
      rw [disk_after_copyNoted] at hmore
      exact hdeeds.append hmore
    · intro deed hdeed
      rcases List.mem_append.1 hdeed with hdeed | hdeed
      · exact (hserve deed hdeed).mono (by simp)
      · exact (hserve' deed hdeed).mono (by simp +contextual)

/-- Each source that has a destination is counted as copied or as a failure, and the failures
name sources in their order. -/
theorem copyFiles_counts {sources : List Path} (h : Host)
    (hmapped : ∀ s ∈ sources, ∃ q, m.destination? s = some q) :
    let report := (m.copyFiles sources).answer h
    report.copied + report.failures.length = sources.length ∧
      (report.failures.map (·.1)).Sublist sources := by
  induction sources generalizing h with
  | nil => exact ⟨rfl, .slnil⟩
  | cons source rest ih =>
    have hanswer := (copyFiles_cons m source rest h).2
    obtain ⟨hcount, hsublist⟩ := ih ((m.copyNoted source).after h) fun s hs => hmapped s (by simp [hs])
    obtain ⟨q, hq⟩ := hmapped source (by simp)
    rw [hanswer]
    rcases copyFile_answers (h := h) hq with hcopied | ⟨e, hfailed⟩
    · rw [hcopied]
      refine ⟨?_, hsublist.cons source⟩
      simp only [counted, List.length_cons]
      omega
    · rw [hfailed]
      refine ⟨?_, hsublist.cons_cons source⟩
      simp only [counted, List.length_cons]
      omega

/-- The sources can be read, no destination of theirs is one of them, and no two of them have
the same destination. -/
structure Separate (m : Placement) (d : Disk) (sources : List Path) : Prop where
  mapped : ∀ s ∈ sources, ∃ q, m.destination? s = some q
  readable : ∀ s ∈ sources, ∃ bytes, d.readFile s = .ok bytes
  apart : ∀ s ∈ sources, ∀ t ∈ sources, ∀ q loc, m.destination? s = some q → d.Reaches q loc →
    ¬ d.Reaches t loc
  distinct : sources.Pairwise fun s t => ∀ q q' loc, m.destination? s = some q →
    m.destination? t = some q' → d.Reaches q loc → ¬ d.Reaches q' loc

/-- What serves to copy some sources leaves a file alone that no destination of theirs is. -/
theorem readFile_of_serves {d d' : Disk} {deeds : List Deed} {sources : List Path} {p : Path}
    (hdeeds : d.Does deeds d') (hserve : ∀ deed ∈ deeds, Serves m sources deed)
    (hread : d.readFile p = .ok bytes)
    (hother : ∀ s ∈ sources, ∀ q loc, m.destination? s = some q → d.Reaches q loc →
      ¬ d.Reaches p loc) : d'.readFile p = .ok bytes := by
  refine hdeeds.readFile_eq hread ?_
  intro q b hq loc hreaches
  obtain ⟨s, hs, hdestination⟩ := hserve _ hq
  exact hother s hs q loc hdestination hreaches

/-- Sources whose destinations lie at different locations have them there on a grown disk too. -/
theorem distinct_of_grows {d d' : Disk} {sources : List Path} (hgrows : d.Grows d')
    (hdistinct : sources.Pairwise fun s t => ∀ q q' loc, m.destination? s = some q →
      m.destination? t = some q' → d.Reaches q loc → ¬ d.Reaches q' loc) :
    sources.Pairwise fun s t => ∀ q q' loc, m.destination? s = some q →
      m.destination? t = some q' → d'.Reaches q loc → ¬ d'.Reaches q' loc := by
  refine hdistinct.imp fun {s t} hst q q' loc hq hq' => ?_
  rw [hgrows.reaches, hgrows.reaches]
  exact hst q q' loc hq hq'

/-- Copying some of the sources leaves the others separate. -/
theorem Separate.of_serves {d d' : Disk} {deeds : List Deed} (done : List Path) {rest : List Path}
    (hseparate : Separate m d (done ++ rest)) (hdeeds : d.Does deeds d')
    (hserve : ∀ deed ∈ deeds, Serves m done deed) : Separate m d' rest where
  mapped := fun s hs => hseparate.mapped s (by simp [hs])
  readable := by
    intro s hs
    obtain ⟨bytes, hread⟩ := hseparate.readable s (by simp [hs])
    refine ⟨bytes, readFile_of_serves hdeeds hserve hread ?_⟩
    exact fun t ht q loc hq hreaches =>
      hseparate.apart t (by simp [ht]) s (by simp [hs]) q loc hq hreaches
  apart := by
    intro s hs t ht q loc hq
    rw [hdeeds.grows.reaches, hdeeds.grows.reaches]
    exact hseparate.apart s (by simp [hs]) t (by simp [ht]) q loc hq
  distinct := distinct_of_grows hdeeds.grows (List.pairwise_append.1 hseparate.distinct).2.1

/-- Every source that gives no failure ends up with its bytes at its destination. -/
theorem copyFiles_held {sources : List Path} (h : Host) (hseparate : Separate m h.disk sources) :
    ∀ s ∈ sources, s ∉ ((m.copyFiles sources).answer h).failures.map (·.1) →
      ∃ q bytes, m.destination? s = some q ∧ h.disk.readFile s = .ok bytes ∧
        ((m.copyFiles sources).after h).disk.readFile s = .ok bytes ∧
        ((m.copyFiles sources).after h).disk.readFile q = .ok bytes := by
  induction sources generalizing h with
  | nil => simp
  | cons source rest ih =>
    intro s hs hunfailed
    obtain ⟨hafter, hanswer⟩ := copyFiles_cons m source rest h
    have hmid := disk_after_copyNoted m source h
    generalize (m.copyNoted source).after h = mid at hafter hanswer hmid
    obtain ⟨deeds, hdeeds, hserve⟩ := does_copyFile (m := m) source h
    obtain ⟨more, hmore, hserve'⟩ := does_copyFiles (m := m) rest mid
    rw [← hmid] at hdeeds
    rw [hafter]
    have hrest : Separate m mid.disk rest :=
      Separate.of_serves [source] hseparate hdeeds hserve
    -- a source reads the same throughout
    have hsame : ∀ t ∈ source :: rest, ∀ bytes, h.disk.readFile t = .ok bytes →
        mid.disk.readFile t = .ok bytes ∧
          ((m.copyFiles rest).after mid).disk.readFile t = .ok bytes := by
      intro t ht bytes hread
      have hmidRead := readFile_of_serves hdeeds hserve hread fun s hs q loc hq hreaches =>
        hseparate.apart s (by simp_all) t ht q loc hq hreaches
      refine ⟨hmidRead, readFile_of_serves hmore hserve' hmidRead ?_⟩
      intro s hs q loc hq
      rw [hdeeds.grows.reaches, hdeeds.grows.reaches]
      exact hseparate.apart s (by simp [hs]) t ht q loc hq
    have hcases : s = source ∧ s ∉ rest ∨ s ∈ rest := by
      by_cases hmem : s ∈ rest
      · exact Or.inr hmem
      · exact Or.inl ⟨by simpa [hmem] using hs, hmem⟩
    rcases hcases with ⟨rfl, _⟩ | hmem
    · -- this source was copied now, and the later copies are at other locations
      obtain ⟨q, hq⟩ := hseparate.mapped s (by simp)
      rcases copyFile_answers (h := h) hq with hcopied | ⟨e, hfailed⟩
      · obtain ⟨_, bytes, hread, hheld⟩ := copyFile_ok hcopied
        rw [← hmid] at hheld
        refine ⟨q, bytes, hq, hread, (hsame s (by simp) bytes hread).2, ?_⟩
        refine readFile_of_serves hmore hserve' hheld ?_
        intro t ht q' loc hq' hreaches' hreaches
        rw [hdeeds.grows.reaches] at hreaches hreaches'
        exact (List.pairwise_cons.1 hseparate.distinct).1 t ht q q' loc hq hq' hreaches hreaches'
      · rw [hanswer, hfailed] at hunfailed
        simp [counted] at hunfailed
    · -- a later source fails in the pass if it fails among the later ones
      have hunfailed' : s ∉ ((m.copyFiles rest).answer mid).failures.map (·.1) := fun hfailed =>
        hunfailed (by rw [hanswer]; exact mem_failures_counted hfailed)
      obtain ⟨q, bytes, hq, hread, hreadAfter, hheld⟩ := ih mid hrest s hmem hunfailed'
      obtain ⟨bytes', hread'⟩ := hseparate.readable s (by simp [hmem])
      have := (hsame s (by simp [hmem]) bytes' hread').1
      rw [hread] at this
      cases this
      exact ⟨q, bytes, hq, hread', hreadAfter, hheld⟩

end Placement

end GemCourier.Sync
