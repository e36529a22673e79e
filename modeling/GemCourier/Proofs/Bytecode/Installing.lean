/-
GemCourier/Proofs/Bytecode/Installing.lean

Where the files of a workspace are installed.

A file that lies some names below the workspace has its target as many names
below the destination, the last one with another extension if it is a script.
The odd one out is a script without a stem: the extension of `..rb` cannot be
replaced, and its target is the directory above, under which nothing is ever
written.  So as long as the compiler writes its target alone, an installation
stays within the destination.

Main results: `components_targetOf`, `targetOf_spec`, `install_within`.
-/
import GemCourier.Bytecode.Install
import GemCourier.Proofs.Disk.Doing
import GemCourier.Proofs.Path.Extension
import GemCourier.Proofs.Sync.Pass

namespace GemCourier.Bytecode

namespace Compiler

/-- A compiler that does nothing to the disk but write the target it is given. -/
def WritesTarget (c : Compiler) : Prop :=
  ∀ source target, (c.compile source target).Does fun deed => ∃ bytes, deed = .wrote target bytes

theorem trial_writesTarget (refusals : List (String × String)) :
    (trial refusals).WritesTarget := by
  intro source target
  simp only [trial]
  split
  · exact .pure _
  · refine .bind .disk fun d => ?_
    split
    · exact .pure _
    · refine .bind (.change (.wrote target _) ⟨_, rfl⟩) fun answer => ?_
      cases answer <;> exact .pure _

end Compiler

variable {compiler : Compiler} {workspace destination source relative : Path}
  {sources : List Path}

/-! ### Targets -/

/-- The path lies below a directory, some names of entries further. -/
def Lies (p folder : Path) : Prop :=
  ∃ names, names ≠ [] ∧ (∀ n ∈ names, IsEntryName n) ∧
    p.components = folder.components ++ names.map .name

/-- What the name of a file becomes at the end of its target. -/
def lastComponent (n : String) : Component :=
  match Path.splitName n with
  | (stem, some extension) =>
    if extension = Sync.scriptExtension then
      if stem = "." then .up else .name (stem ++ "." ++ Sync.bytecodeExtension)
    else .name n
  | (_, none) => .name n

/-- A script becomes bytecode, but for the one without a stem. -/
theorem lastComponent_script {stem : String} (hstem : stem ≠ "") :
    lastComponent (stem ++ "." ++ Sync.scriptExtension) =
      if stem = "." then .up else .name (stem ++ "." ++ Sync.bytecodeExtension) := by
  rw [lastComponent, Path.splitName_of_ending hstem (by decide)]
  exact if_pos rfl

/-- Any other file keeps its name. -/
theorem lastComponent_other {n : String} (hn : ¬ Path.Bears n Sync.scriptExtension) :
    lastComponent n = .name n := by
  rw [lastComponent]
  split
  · next stem extension hsplit =>
    refine if_neg fun hscript => hn ⟨stem, ?_⟩
    rw [← hscript]
    exact Path.splitName_eq_some hsplit
  · rfl

theorem isEntryName_of_lastComponent {n m : String} (hn : IsEntryName n)
    (hm : lastComponent n = .name m) : IsEntryName m := by
  by_cases hbears : Path.Bears n Sync.scriptExtension
  · obtain ⟨stem, hstem, rfl⟩ := hbears
    rw [lastComponent_script hstem] at hm
    split at hm
    · cases hm
    · next hup =>
      obtain rfl := Component.name.inj hm
      have hslash : '/' ∉ stem.toList := fun h => hn.no_slash (by simp [h])
      exact Path.isEntryName_extended hstem hup hslash (by decide)
  · rw [lastComponent_other hbears] at hm
    exact Component.name.inj hm ▸ hn

theorem lastComponent_eq_name_or (n : String) :
    (∃ m, lastComponent n = .name m) ∨ lastComponent n = .up := by
  rw [lastComponent]
  split
  · split
    · split
      · exact Or.inr rfl
      · exact Or.inl ⟨_, rfl⟩
    · exact Or.inl ⟨_, rfl⟩
  · exact Or.inl ⟨_, rfl⟩

/-- The target of a file lies below the destination where the file lies below the workspace, under
the name that its own becomes. -/
theorem components_targetOf (destination : Path) {front : List String} {n : String}
    (hws : workspace.components ≠ []) (hnames : ∀ m ∈ front ++ [n], IsEntryName m)
    (hc : source.components = workspace.components ++ (front ++ [n]).map .name)
    (hrelative : source.relativeTo? workspace = some relative) :
    (isScript source = true ↔ Path.Bears n Sync.scriptExtension) ∧
      (targetOf destination source relative).components =
        destination.components ++ front.map .name ++ [lastComponent n] := by
  obtain ⟨r, hr, hjoinable, hcr⟩ := Path.exists_relativeTo? hws hc
  obtain rfl : r = relative := Option.some.inj (hr.symm.trans hrelative)
  have hjoined := Path.components_join_relative (p := destination) hjoinable
  rw [hcr, List.map_append, List.map_singleton, ← List.append_assoc] at hjoined
  rw [List.map_append, List.map_singleton] at hc hcr
  rw [← List.append_assoc] at hc
  have hscript : isScript source = true ↔ Path.Bears n Sync.scriptExtension := by
    rw [isScript, decide_eq_true_iff, Path.extension?_eq_some_iff hc (by decide)]
  refine ⟨hscript, ?_⟩
  rw [targetOf]
  by_cases hbears : Path.Bears n Sync.scriptExtension
  · -- the last name has an extension, and it is replaced
    rw [if_pos (hscript.2 hbears)]
    obtain ⟨stem, hstem, rfl⟩ := hbears
    have hneat : (destination.join r).Neat (stem ++ "." ++ Sync.scriptExtension) :=
      Path.neat_join (Path.neat_relativeTo? hws hrelative hcr) hjoinable.relative
    rw [lastComponent_script hstem]
    rcases Path.withExtension_spec hneat hjoined (Path.splitName_of_ending hstem (by decide))
        (show '/' ∉ Sync.bytecodeExtension.toList by decide) with ⟨hup, hc⟩ | ⟨hup, -, hc⟩
    · rw [hc, if_pos hup]
    · rw [hc, if_neg hup]
  · rw [if_neg (fun h => hbears (hscript.1 h)), lastComponent_other hbears, hjoined]

/-- A file is installed as many names below the destination as it lies below the workspace,
unless its target is the directory above. -/
theorem targetOf_spec (hws : workspace.components ≠ []) (hsource : Lies source workspace)
    (hrelative : source.relativeTo? workspace = some relative) :
    Lies (targetOf destination source relative) destination ∨
      ∃ names : List String, (targetOf destination source relative).components =
        destination.components ++ names.map .name ++ [.up] := by
  obtain ⟨names, hne, hnames, hc⟩ := hsource
  obtain ⟨front, n, rfl⟩ : ∃ front n, names = front ++ [n] := by
    rcases List.eq_nil_or_concat names with hnil | h
    · exact absurd hnil hne
    · simpa using h
  obtain ⟨-, htarget⟩ := components_targetOf destination hws hnames hc hrelative
  rcases lastComponent_eq_name_or n with ⟨m, hm⟩ | hup
  · refine Or.inl ⟨front ++ [m], by simp, ?_, by rw [htarget, hm]; simp⟩
    intro l hl
    rcases List.mem_append.1 hl with hl | hl
    · exact hnames l (by simp [hl])
    · exact List.mem_singleton.1 hl ▸ isEntryName_of_lastComponent (hnames n (by simp)) hm
  · exact Or.inr ⟨front, by rw [htarget, hup]⟩

/-! ### Deeds -/

/-- Whatever is installed, only directories at parts of the way to a target and targets are
written. -/
theorem does_installAt (hcompiler : compiler.WritesTarget) (source target : Path) :
    (installAt compiler source target).Does fun deed =>
      (∃ p, deed = .made p ∧ p.components <+: target.components.dropLast) ∨
        ∃ bytes, deed = .wrote target bytes := by
  refine .bind (Directory.does_ensureParent fun p hp => Or.inl ⟨p, rfl, hp⟩) fun answer => ?_
  cases answer with
  | error e => exact .pure _
  | ok _ =>
    show Act.Does (if isScript source then _ else _) _
    split
    · refine .bind ((hcompiler source target).mono fun _ => Or.inr) fun answer => ?_
      cases answer <;> exact .pure _
    · refine .bind .disk fun d => ?_
      split
      · exact .pure _
      · refine .bind (.change (.wrote target _) (Or.inr ⟨_, rfl⟩)) fun answer => ?_
        cases answer <;> exact .pure _

/-- Making sure of directories leaves files as they are. -/
theorem readFile_of_ensureParent {h : Host} {bytes : ByteArray} (target : Path)
    (hread : h.disk.readFile source = .ok bytes) :
    ((Directory.ensureParent target).after h).disk.readFile source = .ok bytes := by
  have hdoes : (Directory.ensureParent target).Does fun deed => ∃ p, deed = .made p :=
    Directory.does_ensureParent fun p _ => ⟨p, rfl⟩
  obtain ⟨deeds, hdeeds, hall⟩ := hdoes h
  refine hdeeds.readFile_eq hread fun q b hq => ?_
  obtain ⟨p, hp⟩ := hall _ hq
  cases hp

theorem does_installAll {allowed : Deed → Prop} (hallowed : ∀ source ∈ sources, ∀ relative,
      source.relativeTo? workspace = some relative →
      (installAt compiler source (targetOf destination source relative)).Does allowed) :
    (installAll compiler workspace destination sources).Does allowed := by
  induction sources with
  | nil => exact .pure _
  | cons source rest ih =>
    have hrest := ih fun s hs => hallowed s (by simp [hs])
    rw [installAll]
    split
    · exact hrest
    · next relative hrelative =>
      refine .bind (hallowed source (by simp) relative hrelative) fun answer => ?_
      cases answer with
      | error e =>
        exact .bind .disk fun _ => .bind (.note _ _) fun _ => .bind hrest fun _ => .pure _
      | ok _ =>
        refine .bind hrest fun report => ?_
        split <;> exact .pure _

/-- What was installed as a script, or what was copied. -/
def InstallReport.installed (r : InstallReport) (script : Bool) : List Path :=
  if script then r.compiled else r.copied

/-- After a file is installed, the others are, and it is accounted for beside them. -/
theorem installAll_cons (compiler : Compiler) (destination : Path) (rest : List Path)
    (hrelative : source.relativeTo? workspace = some relative) (h : Host) :
    ∃ noted : Host, noted.disk =
        ((installAt compiler source (targetOf destination source relative)).after h).disk ∧
      ((installAll compiler workspace destination (source :: rest)).after h).disk =
        ((installAll compiler workspace destination rest).after noted).disk ∧
      ∀ script t,
        t ∈ ((installAll compiler workspace destination (source :: rest)).answer h).installed script ↔
          (installAt compiler source (targetOf destination source relative)).answer h = .ok () ∧
              isScript source = script ∧ t = targetOf destination source relative ∨
            t ∈ ((installAll compiler workspace destination rest).answer noted).installed script := by
  rw [installAll, hrelative]
  simp only [Act.after_bind, Act.answer_bind]
  generalize installAt compiler source (targetOf destination source relative) = step
  cases hanswer : step.answer h with
  | error e =>
    refine ⟨_, Act.disk_after_note .warn
      s!"Failed to install {source}: {e.message (step.after h).disk}" (step.after h), rfl, ?_⟩
    intro script t
    cases script <;> simp [InstallReport.installed]
  | ok _ =>
    refine ⟨step.after h, rfl, ?_, ?_⟩
    · simp only [Act.after_bind]
      split <;> rfl
    · intro script t
      cases isScript source <;> cases script <;> simp [InstallReport.installed]

/-- What is found in a workspace lies below it. -/
theorem lies_of_leaf {d : Disk} (hd : d.WellFormed) (h : .leaf source ∈ d.leavesBelow workspace) :
    Lies source workspace := by
  obtain ⟨names, hne, hnames, rfl⟩ := Disk.descend_of_mem_walkWithin hd h
  exact ⟨names, hne, hnames, Path.components_descend hnames⟩

/-- Nothing is found in the directory without a name. -/
theorem components_ne_nil_of_leaf {d : Disk} (h : .leaf source ∈ d.leavesBelow workspace) :
    workspace.components ≠ [] := by
  rw [Disk.leavesBelow] at h
  cases hsteps : d.walkBound with
  | zero => simp [hsteps, Disk.walkWithin] at h
  | succ steps =>
    rw [hsteps, Disk.walkWithin] at h
    split at h
    · simp at h
    · next children hchildren =>
      obtain ⟨listed, hlisted, -⟩ := Disk.childrenOf_ok_iff.1 hchildren
      obtain ⟨_, hfind, -⟩ := Disk.names_ok_iff.1 hlisted
      exact Path.components_ne_nil (Disk.find_ok_iff.1 hfind).1.ne_empty

theorem disk_after_report (found : List Finding) (h : Host) :
    ((Finding.report found).after h).disk = h.disk :=
  Sync.report_keeps Act.Keeps.note_disk _ h

/-- An installation from a workspace without files does nothing. -/
theorem install_of_no_leaves {h : Host}
    (hnone : (h.disk.leavesBelow workspace).filterMap Finding.leaf? = []) :
    ((install compiler workspace destination).after h).disk = h.disk := by
  rw [install, Act.after_bind, Act.answer_disk, Act.after_disk, Act.after_bind, hnone, installAll,
    Act.after_pure, disk_after_report]

/-- An installation writes and makes directories within the destination only. -/
theorem install_within (hcompiler : compiler.WritesTarget) (hws : workspace.components ≠ [])
    {h : Host} (hd : h.disk.WellFormed) :
    ∃ deeds, h.disk.Does deeds ((install compiler workspace destination).after h).disk ∧
      ∀ deed ∈ deeds, deed.Within destination := by
  let sources := (h.disk.leavesBelow workspace).filterMap Finding.leaf?
  have hsources : ∀ source ∈ sources, Lies source workspace :=
    fun source hsource => lies_of_leaf hd (Finding.mem_filterMap_leaf?.1 hsource)
  have hdoes : (installAll compiler workspace destination sources).Does fun deed =>
      deed.Within destination ∨
        ∃ p bytes cs, deed = .wrote p bytes ∧ p.components = cs ++ [.up] := by
    refine does_installAll fun source hsource relative hrelative => ?_
    refine (does_installAt hcompiler _ _).mono fun deed hdeed => ?_
    rcases targetOf_spec hws (hsources source hsource) hrelative with
      ⟨names, hne, -, hc⟩ | ⟨names, hc⟩
    · rcases hdeed with ⟨p, rfl, hp⟩ | ⟨bytes, rfl⟩
      · exact Or.inl (Deed.within_made names (hc ▸ hp.trans (List.dropLast_prefix _)))
      · exact Or.inl ⟨names, hne, hc⟩
    · rcases hdeed with ⟨p, rfl, hp⟩ | ⟨bytes, rfl⟩
      · rw [hc, List.dropLast_concat] at hp
        exact Or.inl (Deed.within_made names hp)
      · exact Or.inr ⟨_, bytes, _, rfl, hc⟩
  let mid := (Finding.report (h.disk.leavesBelow workspace)).after h
  have hmid : mid.disk = h.disk := disk_after_report _ h
  obtain ⟨deeds, hdeeds, hall⟩ := hdoes mid
  rw [hmid] at hdeeds
  refine ⟨deeds, hdeeds, fun deed hdeed => (hall deed hdeed).resolve_right ?_⟩
  rintro ⟨p, bytes, cs, rfl, hup⟩
  obtain ⟨ds, n, hname⟩ := hdeeds.exists_name_of_wrote hd hdeed
  have hlast := (List.append_inj' (hup.symm.trans hname) rfl).2
  cases hlast

end GemCourier.Bytecode
