/-
GemCourier/Proofs/Sync/Answers.lean

What the answer of a copy says about the disk that it leaves.

A copy reads its source, makes sure of the directories on the way to its
destination and writes the destination, and every one of these can fail.  Its
answer tells how far it got.  Without a destination, or with a source that is
not read, nothing was done.  With a directory that is not made, or a destination
that is not written, there may be more directories on the way than before, and
all else is as it was (`AddsWay`).  With a destination in the answer there is one
file more that changed, which is that destination.

No place is told from its location here: a directory was made, and the
destination written, where its path led on the disk that the copy found, through
links or not.

Main results: `addsWay_of_does`, `deliver_accounts`, `copyFile_accounts`.
-/
import GemCourier.Proofs.Sync.Again

namespace GemCourier

namespace Disk

variable {d d' : Disk} {q : Path} {deeds : List Deed}

/-- Whatever stands on the first disk, save at some places, stands on the second one as it was,
and whatever is new there, save at these places, is a directory on the way to the path. -/
structure AddsWay (d d' : Disk) (q : Path) (but : Location → Prop) : Prop where
  kept : ∀ loc, ¬ but loc → d.node? loc ≠ none → d'.node? loc = d.node? loc
  added : ∀ loc, ¬ but loc → d.node? loc = none → d'.node? loc ≠ none →
    d'.node? loc = some .folder ∧
      ∃ p : Path, p.components <+: q.components.dropLast ∧ d.Reaches p loc

/-- Deeds that make directories on the way to a path, or write to the path, add the way to it, but
for where they write. -/
theorem addsWay_of_does {but : Location → Prop} (h : d.Does deeds d')
    (hmade : ∀ p, .made p ∈ deeds → p.components <+: q.components.dropLast)
    (hwrote : ∀ p bytes, .wrote p bytes ∈ deeds → ∀ loc, d.Reaches p loc → but loc) :
    d.AddsWay d' q but := by
  refine ⟨fun loc hloc hstood => ?_, fun loc hloc hnone hstands => ?_⟩
  · rcases h.node?_eq_or loc with hsame | ⟨_, _, _, hnone, _⟩ | ⟨p, b, _, _, hp, hreaches, _⟩
    · exact hsame
    · exact absurd hnone hstood
    · exact absurd (hwrote p b hp loc hreaches) hloc
  · rcases h.node?_eq_or loc with
      hsame | ⟨p, hp, hreaches, _, hfolder⟩ | ⟨p, b, _, _, hp, hreaches, _⟩
    · exact absurd (hsame.trans hnone) hstands
    · exact ⟨hfolder, p, hmade p hp, hreaches⟩
    · exact absurd (hwrote p b hp loc hreaches) hloc

end Disk

namespace Directory

/-- What a delivery answers, and what it leaves. -/
theorem deliver_accounts (q : Path) (bytes : ByteArray) (h : Host) :
    let after := ((deliver q bytes).after h).disk
    match (deliver q bytes).answer h with
    | .error (.inl cause) =>
      (ensureParent q).answer h = .error cause ∧ h.disk.AddsWay after q fun _ => False
    | .error (.inr fault) =>
      after.writeFile q bytes = .error fault ∧ h.disk.AddsWay after q fun _ => False
    | .ok () =>
      ∃ place modified mode, h.disk.Reaches q place ∧
        after.node? place = some (.file bytes modified mode) ∧ h.disk.AddsWay after q (· = place) := by
  intro after
  obtain ⟨deeds, hdeeds, hall⟩ := exists_deeds_deliver q bytes h
  have hmade : ∀ p, .made p ∈ deeds → p.components <+: q.components.dropLast := by
    intro p hp
    rcases hall _ hp with ⟨p', heq, hway⟩ | ⟨heq, -⟩
    · cases heq
      exact hway
    · cases heq
  have hwrote : ∀ p b, .wrote p b ∈ deeds → p = q ∧ (deliver q bytes).answer h = .ok () := by
    intro p b hp
    rcases hall _ hp with ⟨_, heq, -⟩ | ⟨heq, hok⟩
    · cases heq
    · cases heq
      exact ⟨rfl, hok⟩
  cases hparent : (ensureParent q).answer h with
  | error cause =>
    have hanswer := (deliver_blocked bytes hparent).1
    rw [hanswer]
    refine ⟨rfl, Disk.addsWay_of_does hdeeds hmade fun p b hp => ?_⟩
    rw [hanswer] at hwrote
    cases (hwrote p b hp).2
  | ok _ =>
    cases hwrite : ((ensureParent q).after h).disk.writeFile q bytes with
    | error fault =>
      obtain ⟨hanswer, hafter⟩ := deliver_refused hparent hwrite
      rw [hanswer]
      refine ⟨by rw [show after = _ from congrArg Host.disk hafter, hwrite],
        Disk.addsWay_of_does hdeeds hmade fun p b hp => ?_⟩
      rw [hanswer] at hwrote
      cases (hwrote p b hp).2
    | ok d =>
      have hanswer := (deliver_written hparent hwrite).1
      rw [hanswer]
      -- the file is found where its path leads, before as well as after
      obtain ⟨modified, mode, hnode⟩ := Disk.readFile_ok_iff.1 (readFile_of_deliver hanswer)
      obtain ⟨place, hfind, hfile⟩ := Disk.node_ok_iff.1 hnode
      have hplace : h.disk.Reaches q place :=
        hdeeds.grows.reaches.1 (Disk.reaches_of_find (Or.inl (by simp)) hfind)
      refine ⟨place, modified, mode, hplace, hfile, Disk.addsWay_of_does hdeeds hmade ?_⟩
      intro p b hp loc hloc
      rw [(hwrote p b hp).1] at hloc
      exact hloc.unique hplace

end Directory

namespace Sync.Placement

open Directory (deliver)

/-- **What the answer of a copy says about the disk**: with no destination, or a source that is
not read, the disk is what it was; with a directory that is not made, or a destination that is not
written, all that stood is as it was, and what is new are directories on the way to the
destination; and with a destination, it is the one of the source and holds the bytes of the source,
and of all the rest the same is true. -/
theorem copyFile_accounts (m : Placement) (source : Path) (h : Host) :
    let after := ((m.copyFile source).after h).disk
    match (m.copyFile source).answer h with
    | .ok none => m.destination? source = none ∧ after = h.disk
    | .error (.read p fault) =>
      p = source ∧ (m.destination? source).isSome ∧ h.disk.readFile source = .error fault ∧
        after = h.disk
    | .error (.prepareDirectory q cause) =>
      m.destination? source = some q ∧ (Directory.ensureParent q).answer h = .error cause ∧
        h.disk.AddsWay after q fun _ => False
    | .error (.write q fault) =>
      m.destination? source = some q ∧ (∃ bytes, h.disk.readFile source = .ok bytes ∧
        after.writeFile q bytes = .error fault) ∧ h.disk.AddsWay after q fun _ => False
    | .ok (some q) =>
      m.destination? source = some q ∧ ∃ bytes place modified mode,
        h.disk.readFile source = .ok bytes ∧ after.readFile q = .ok bytes ∧
        h.disk.Reaches q place ∧ after.node? place = some (.file bytes modified mode) ∧
        h.disk.AddsWay after q (· = place) := by
  intro after
  cases hq : m.destination? source with
  | none =>
    have hanswer : (m.copyFile source).answer h = .ok none := by simp [copyFile, hq]
    rw [hanswer]
    exact ⟨rfl, by simp [after, copyFile, hq]⟩
  | some q =>
    cases hread : h.disk.readFile source with
    | error fault =>
      have hanswer : (m.copyFile source).answer h = .error (.read source fault) := by
        simp [copyFile, hq, hread]
      rw [hanswer]
      exact ⟨rfl, rfl, rfl, by simp [after, copyFile, hq, hread]⟩
    | ok bytes =>
      obtain ⟨hanswer, hafter⟩ := copyFile_delivers hq hread
      have haccount := Directory.deliver_accounts q bytes h
      rw [hanswer, show after = _ from hafter]
      cases hdelivered : (deliver q bytes).answer h with
      | error e =>
        rw [hdelivered] at haccount
        cases e with
        | inl cause => exact ⟨rfl, haccount⟩
        | inr fault => exact ⟨rfl, ⟨bytes, rfl, haccount.1⟩, haccount.2⟩
      | ok _ =>
        rw [hdelivered] at haccount
        obtain ⟨place, modified, mode, hplace, hfile, hadds⟩ := haccount
        exact ⟨rfl, bytes, place, modified, mode, rfl, Directory.readFile_of_deliver hdelivered,
          hplace, hfile, hadds⟩

/-- A host with a project of one script, and a file where its storage is to be. -/
def occupiedHost : Host where
  disk := {
    nodes := [(["p"], .folder), (["p", "a.rb"], .file "x".toUTF8 1 0o644),
      (["s"], .file "y".toUTF8 1 0o644)]
    start := []
    clock := 2 }
  transcript := []

/-- The way to a storage that is spelled with a detour is made as far as it goes. -/
theorem copyFile_accounts_occupiedHost :
    let d := occupiedHost.disk
    let m : Placement := ⟨SourceSets.on d ⟨"/p"⟩, Buckets.on ⟨"/n/../s"⟩⟩
    let after := ((m.copyFile ⟨"/p/a.rb"⟩).after occupiedHost).disk
    (m.copyFile ⟨"/p/a.rb"⟩).answer occupiedHost =
        .error (.prepareDirectory ⟨"/n/../s/home/a.rb"⟩ (.notDirectory ⟨"/n/../s"⟩)) ∧
      d.AddsWay after ⟨"/n/../s/home/a.rb"⟩ (fun _ => False) ∧
      d.node? ["n"] = none ∧ after.node? ["n"] = some .folder := by
  intro d m after
  have hanswer : (m.copyFile ⟨"/p/a.rb"⟩).answer occupiedHost =
      .error (.prepareDirectory ⟨"/n/../s/home/a.rb"⟩ (.notDirectory ⟨"/n/../s"⟩)) := by
    decide +kernel
  have haccount := copyFile_accounts m ⟨"/p/a.rb"⟩ occupiedHost
  rw [hanswer] at haccount
  exact ⟨hanswer, haccount.2.2, by decide +kernel, by decide +kernel⟩

end Sync.Placement

end GemCourier
