/-
GemCourier/Proofs/Bytecode/Twins.lean

Installing one workspace on two disks.

A compiler that computes what it writes from what it is given does the same on
any two disks on which the script reads the same.  So two disks that are alike
off the workspace, and on which the files of the workspace read the same, stay
alike off the workspace while these files are installed, whatever else lies in
it on either.

Main result: `install_twins`.
-/
import GemCourier.Proofs.Bytecode.Installing
import GemCourier.Proofs.Host.Matching

namespace GemCourier.Bytecode

open Disk

namespace Compiler

variable {c : Compiler} {f : Path → Path → Except Fault ByteArray → Option ByteArray}

/-- What the compiler does to the disk is to write to the target what is computed from the paths it
is given and the bytes of the script, if it does anything. -/
def Computes (c : Compiler) (f : Path → Path → Except Fault ByteArray → Option ByteArray) : Prop :=
  ∀ source target (h : Host), ((c.compile source target).after h).disk =
    match f source target (h.disk.readFile source) with
    | none => h.disk
    | some bytes => ((Act.change (·.writeFile target bytes)).after h).disk

theorem Computes.writesTarget (hcomputes : c.Computes f) : c.WritesTarget := by
  intro source target h
  have hdisk := hcomputes source target h
  split at hdisk
  · exact ⟨[], hdisk ▸ .nothing _, by simp⟩
  · next bytes _ =>
    have hwrote : (Act.change (Deed.run (.wrote target bytes))).Does fun deed =>
        ∃ bytes, deed = .wrote target bytes := .change _ ⟨bytes, rfl⟩
    obtain ⟨deeds, hdeeds, hall⟩ := hwrote h
    exact ⟨deeds, hdisk ▸ hdeeds, hall⟩

/-- What the compiler for trials writes. -/
def trialOutput (refusals : List (String × String)) (source _target : Path) :
    Except Fault ByteArray → Option ByteArray
  | .error _ => none
  | .ok bytes =>
    if (source.fileName?.bind fun name => refusals.lookup name).isSome then none
    else some (mark.toUTF8 ++ bytes)

theorem trial_computes (refusals : List (String × String)) :
    (trial refusals).Computes (trialOutput refusals) := by
  intro source target h
  simp only [trial]
  cases hrefused : source.fileName?.bind fun name => refusals.lookup name with
  | some diagnostic => cases hread : h.disk.readFile source <;> simp [trialOutput, hrefused]
  | none =>
    cases hread : h.disk.readFile source with
    | error fault => simp [markScript, trialOutput, hread]
    | ok bytes =>
      simp only [markScript, trialOutput, hrefused, hread, Act.after_bind, Act.answer_disk,
        Act.after_disk, Option.isSome_none, Bool.false_eq_true, if_false]
      split <;> rfl

end Compiler

variable {compiler : Compiler} {f : Path → Path → Except Fault ByteArray → Option ByteArray}
  {place : Location} {workspace destination source relative target : Path} {sources : List Path}
  {h k : Host} {bytes : ByteArray}

/-! ### One file -/

theorem copyTo_twins (htwins : Twins place h.disk k.disk) (hread : h.disk.readFile source = .ok bytes)
    (hread' : k.disk.readFile source = .ok bytes) (hoff : Off place h.disk.start target.components) :
    Twins place ((copyTo source target).after h).disk ((copyTo source target).after k).disk := by
  obtain ⟨hanswer, hafter⟩ :=
    Act.change_twins (f := (·.writeFile target bytes)) htwins (htwins.writeFile hoff bytes)
  simp only [copyTo, Act.after_bind, Act.answer_disk, Act.after_disk, hread, hread', hanswer]
  split <;> exact hafter

theorem compile_twins (hcomputes : compiler.Computes f) (htwins : Twins place h.disk k.disk)
    (hread : k.disk.readFile source = h.disk.readFile source)
    (hoff : Off place h.disk.start target.components) :
    Twins place ((compiler.compile source target).after h).disk
      ((compiler.compile source target).after k).disk := by
  rw [hcomputes, hcomputes, hread]
  split
  · exact htwins
  · next bytes _ => exact (Act.change_twins htwins (htwins.writeFile hoff bytes)).2

/-- A file that reads the same on both disks is installed on both alike. -/
theorem installAt_twins (hcomputes : compiler.Computes f) (htwins : Twins place h.disk k.disk)
    (hread : h.disk.readFile source = .ok bytes) (hread' : k.disk.readFile source = .ok bytes)
    (hoff : Off place h.disk.start target.components) :
    Twins place ((installAt compiler source target).after h).disk
      ((installAt compiler source target).after k).disk := by
  obtain ⟨hanswer, hready⟩ :=
    Directory.ensureParent_twins htwins (hoff.initial (List.dropLast_prefix _))
  have hnow := readFile_of_ensureParent target hread
  have hnow' := readFile_of_ensureParent target hread'
  rw [← (Directory.grows_ensureParent target h).start] at hoff
  simp only [installAt, Act.after_bind, hanswer]
  cases (Directory.ensureParent target).answer h with
  | error e => exact hready
  | ok _ =>
    simp only
    split
    · have hcompiled := compile_twins hcomputes hready (hnow'.trans hnow.symm) hoff
      simp only [Act.after_bind]
      split <;> split <;> exact hcompiled
    · exact copyTo_twins hready hnow hnow' hoff

/-- A file within the place reads the same after another one is installed off it. -/
theorem readFile_of_installAt {p : Path} {loc : Location} (hcompiler : compiler.WritesTarget)
    (hfree : ∀ loc, h.disk.link? loc = none) (hoff : Off place h.disk.start target.components)
    (hloc : h.disk.Reaches p loc) (hbelow : place <+: loc) (hread : h.disk.readFile p = .ok bytes) :
    ((installAt compiler source target).after h).disk.readFile p = .ok bytes := by
  obtain ⟨deeds, hdeeds, hall⟩ := does_installAt hcompiler source target h
  refine hdeeds.readFile_eq hread fun q b hq dest hdest hp => ?_
  rcases hall _ hq with ⟨_, hmade, -⟩ | ⟨_, hwrote⟩
  · cases hmade
  · cases hwrote
    exact hoff.reaches hfree hdest (hp.unique hloc ▸ hbelow)

/-! ### All files -/

/-- Files of a workspace that read the same on both disks are installed on both alike. -/
theorem installAll_twins (hcomputes : compiler.Computes f) (hws : workspace.components ≠ [])
    (hsources : ∀ s ∈ sources, Lies s workspace) (htwins : Twins place h.disk k.disk)
    (hplace : h.disk.Reaches workspace place) (hoff : Off place h.disk.start destination.components)
    (hnot : ¬ landing h.disk.start destination.components <+: place)
    (hread : ∀ s ∈ sources, ∃ bytes, h.disk.readFile s = .ok bytes ∧ k.disk.readFile s = .ok bytes) :
    Twins place ((installAll compiler workspace destination sources).after h).disk
      ((installAll compiler workspace destination sources).after k).disk := by
  induction sources generalizing h k with
  | nil => exact htwins
  | cons source rest ih =>
    obtain ⟨names, -, -, hc⟩ := hsources source (by simp)
    obtain ⟨relative, hrelative, -⟩ := Path.exists_relativeTo? hws hc
    obtain ⟨noted, hnoted, hrest, -⟩ := installAll_cons compiler destination rest hrelative h
    obtain ⟨noted', hnoted', hrest', -⟩ := installAll_cons compiler destination rest hrelative k
    obtain ⟨bytes, hbytes, hbytes'⟩ := hread source (by simp)
    have htarget : Off place h.disk.start (targetOf destination source relative).components := by
      rcases targetOf_spec hws (hsources source (by simp)) hrelative with
        ⟨others, -, -, hothers⟩ | ⟨others, hothers⟩
      · rw [hothers]
        exact hoff.append_names hnot others
      · rw [hothers]
        exact (hoff.append_names hnot others).concat_up
    have hstep := installAt_twins hcomputes htwins hbytes hbytes' htarget
    obtain ⟨deeds, hdeeds, -⟩ := does_installAt hcomputes.writesTarget source
      (targetOf destination source relative) h
    rw [← hnoted, ← hnoted'] at hstep
    rw [← hnoted] at hdeeds
    rw [hrest, hrest']
    refine ih (fun s hs => hsources s (by simp [hs])) hstep (hdeeds.grows.reaches.2 hplace)
      (hdeeds.grows.start ▸ hoff) (hdeeds.grows.start ▸ hnot) fun s hs => ?_
    -- the files that are left lie within the place, and nothing was written there
    obtain ⟨others, -, -, hothers⟩ := hsources s (by simp [hs])
    have hreaches : h.disk.Reaches s (place ++ others) :=
      (reaches_below (fun _ _ _ => htwins.free _) hothers).2 ⟨place, hplace, rfl⟩
    obtain ⟨b, hb, hb'⟩ := hread s (by simp [hs])
    refine ⟨b, ?_, ?_⟩
    · rw [hnoted]
      exact readFile_of_installAt hcomputes.writesTarget htwins.free htarget hreaches
        (List.prefix_append _ _) hb
    · rw [hnoted']
      exact readFile_of_installAt hcomputes.writesTarget htwins.free' (htwins.start ▸ htarget)
        (htwins.reaches.2 hreaches) (List.prefix_append _ _) hb'

/-- If the same files are found in the workspace on both disks and read the same, the workspace is
installed on both alike. -/
theorem install_twins (hcomputes : compiler.Computes f) (hws : workspace.components ≠ [])
    (hd : h.disk.WellFormed) (htwins : Twins place h.disk k.disk)
    (hplace : h.disk.Reaches workspace place) (hoff : Off place h.disk.start destination.components)
    (hnot : ¬ landing h.disk.start destination.components <+: place)
    (hleaves : (k.disk.leavesBelow workspace).filterMap Finding.leaf? =
      (h.disk.leavesBelow workspace).filterMap Finding.leaf?)
    (hread : ∀ s, .leaf s ∈ h.disk.leavesBelow workspace →
      ∃ bytes, h.disk.readFile s = .ok bytes ∧ k.disk.readFile s = .ok bytes) :
    Twins place ((install compiler workspace destination).after h).disk
      ((install compiler workspace destination).after k).disk := by
  simp only [install, Act.after_bind, Act.answer_disk, Act.after_disk]
  rw [hleaves]
  refine installAll_twins hcomputes hws
    (fun s hs => lies_of_leaf hd (Finding.mem_filterMap_leaf?.1 hs)) ?_ ?_ ?_ ?_ fun s hs => ?_
  · rwa [disk_after_report, disk_after_report]
  · rwa [disk_after_report]
  · rwa [disk_after_report]
  · rwa [disk_after_report]
  · rw [disk_after_report, disk_after_report]
    exact hread s (Finding.mem_filterMap_leaf?.1 hs)

end GemCourier.Bytecode
