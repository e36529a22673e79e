/-
GemCourier/Proofs/Bytecode/Isolation.lean

What becomes of a file, whatever becomes of another one.

Two compilers that do the same with all scripts of a workspace but one leave
disks that differ in the target of that script and in what was copied over it:
on one of them there may be a file where nothing stands on the other.  No file
that is found later comes by that place.  Its own path was there before, so
nothing is missing on it.  Its target lies below the destination under other
names, and none of them goes on from the name of the bytecode: that name comes
before the name of its script, and so does all that lies under it.

This needs the names to tell the places, so there are no links at or below the
workspace and the destination.  With a link in either of them a file can be
read from the target of another one, or be installed below it.  It also needs
compilers that go by the script alone, since one that looks at the target of
another script tells whether there is one.

Main results: `installAt_alike`, `avoids_differing`, `install_outcomes`,
`leaks_through_links_and_reading`.
-/
import GemCourier.Proofs.Bytecode.Reading

namespace GemCourier.Bytecode

open Disk

/-! ### Compilers that are followed -/

namespace Compiler

/-- What a compiler does with a script: it answers at once, or it writes the target and answers by
what came of that. -/
inductive Move where
  | answers (result : Except CompileError Unit)
  | writes (bytes : ByteArray) (answer : Except Fault Unit → Except CompileError Unit)

/-- The move made on a host. -/
def Move.run (target : Path) : Move → Act (Except CompileError Unit)
  | answers result => return result
  | writes bytes answer => answer <$> Act.change (·.writeFile target bytes)

/-- What the compiler does with the script is told from the paths that it is given and the bytes of
the script. -/
def Follows (c : Compiler) (f : Path → Path → Except Fault ByteArray → Move) (source : Path) :
    Prop :=
  ∀ target (h : Host),
    (c.compile source target).answer h =
        ((f source target (h.disk.readFile source)).run target).answer h ∧
      ((c.compile source target).after h).disk =
        (((f source target (h.disk.readFile source)).run target).after h).disk

/-- What the compiler for trials does. -/
def trialMove (refusals : List (String × String)) (source _target : Path)
    (read : Except Fault ByteArray) : Move :=
  match source.fileName?.bind fun name => refusals.lookup name with
  | some diagnostic => .answers (.error (.refused source diagnostic))
  | none => match read with
    | .error _ => .answers (.error (.refused source "unreadable"))
    | .ok bytes => .writes (mark.toUTF8 ++ bytes) fun
      | .error _ => .error (.refused source "unwritable")
      | .ok () => .ok ()

/-- The compiler for trials does what it would with other refusals, if they say the same about the
script. -/
theorem trial_follows {refusals others : List (String × String)} {source : Path}
    (hsame : (source.fileName?.bind fun name => refusals.lookup name) =
      source.fileName?.bind fun name => others.lookup name) :
    (trial refusals).Follows (trialMove others) source := by
  intro target h
  simp only [trial, trialMove, hsame]
  cases source.fileName?.bind fun name => others.lookup name with
  | some diagnostic => exact ⟨rfl, rfl⟩
  | none =>
    cases hread : h.disk.readFile source with
    | error fault => simp [markScript, Move.run, hread]
    | ok bytes =>
      simp only [markScript, Move.run, hread, Act.answer_bind, Act.after_bind, Act.answer_disk,
        Act.after_disk, Act.answer_map, Act.after_map]
      cases (Act.change (·.writeFile target (mark.toUTF8 ++ bytes))).answer h <;> exact ⟨rfl, rfl⟩

end Compiler

variable {c c' : Compiler} {f : Path → Path → Except Fault ByteArray → Compiler.Move}
  {workspace destination source other bad target target' : Path} {d d' e e' : Disk} {h k : Host}
  {places : Location → Prop} {base loc met : Location} {sources : List Path}

/-! ### One file on two disks -/

section OneFile

variable (halike : AlikeBut places h.disk k.disk) (havoids : h.disk.Avoids target places)
include halike havoids

theorem Compiler.Move.run_alike (move : Move) :
    (move.run target).answer k = (move.run target).answer h ∧
      AlikeBut places ((move.run target).after h).disk ((move.run target).after k).disk := by
  cases move with
  | answers result => exact ⟨rfl, halike⟩
  | writes bytes answer =>
    obtain ⟨hanswer, hafter⟩ := Act.change_matches (f := (·.writeFile target bytes))
      (g := (·.writeFile target bytes)) halike (halike.writeFile havoids bytes bytes)
    exact ⟨congrArg answer hanswer, hafter⟩

theorem compile_alike (hfollows : c.Follows f source) (hfollows' : c'.Follows f source)
    (hread : k.disk.readFile source = h.disk.readFile source) :
    (c'.compile source target).answer k = (c.compile source target).answer h ∧
      AlikeBut places ((c.compile source target).after h).disk
        ((c'.compile source target).after k).disk := by
  obtain ⟨hanswer, hafter⟩ := hfollows target h
  obtain ⟨hanswer', hafter'⟩ := hfollows' target k
  rw [hanswer, hanswer', hafter, hafter', hread]
  exact Compiler.Move.run_alike halike havoids _

theorem copyTo_alike
    (hread : (k.disk.readFile source).map (fun _ => ()) =
      (h.disk.readFile source).map fun _ => ()) :
    (copyTo source target).answer k = (copyTo source target).answer h ∧
      AlikeBut places ((copyTo source target).after h).disk
        ((copyTo source target).after k).disk := by
  simp only [copyTo, Act.answer_bind, Act.after_bind, Act.answer_disk, Act.after_disk]
  cases hbytes : h.disk.readFile source with
  | error fault =>
    cases hbytes' : k.disk.readFile source with
    | error fault' =>
      rw [hbytes, hbytes'] at hread
      cases hread
      exact ⟨rfl, halike⟩
    | ok bytes' =>
      rw [hbytes, hbytes'] at hread
      cases hread
  | ok bytes =>
    cases hbytes' : k.disk.readFile source with
    | error fault' =>
      rw [hbytes, hbytes'] at hread
      cases hread
    | ok bytes' =>
      obtain ⟨hanswer, hafter⟩ := Act.change_matches (f := (·.writeFile target bytes))
        (g := (·.writeFile target bytes')) halike (halike.writeFile havoids bytes bytes')
      simp only [Act.answer_bind, Act.after_bind, hanswer]
      cases (Act.change (·.writeFile target bytes)).answer h <;> exact ⟨rfl, hafter⟩

/-- A file whose target avoids the places where the disks differ is installed on both alike. -/
theorem installAt_alike (hd : d.WellFormed) (hfree : d.LinkFreeBelow workspace)
    (hfree' : d.LinkFreeBelow destination) (hleaf : .leaf source ∈ d.leavesBelow workspace)
    (hfollows : isScript source = true → c.Follows f source ∧ c'.Follows f source)
    (hprogress : Progress workspace destination d h.disk)
    (hprogress' : Progress workspace destination d k.disk) :
    (installAt c' source target).answer k = (installAt c source target).answer h ∧
      AlikeBut places ((installAt c source target).after h).disk
        ((installAt c' source target).after k).disk := by
  obtain ⟨hanswer, hready⟩ :=
    (blind_alikeBut places).ensureParent halike (List.dropLast_prefix _) havoids
  have hprepared := hprogress.ensureParent target
  have hprepared' := hprogress'.ensureParent target
  have hclear := havoids.grows (Directory.grows_ensureParent target h)
  simp only [installAt, Act.answer_bind, Act.after_bind, hanswer]
  generalize (Directory.ensureParent target).after h = h' at *
  generalize (Directory.ensureParent target).after k = k' at *
  cases (Directory.ensureParent target).answer h with
  | error e => exact ⟨rfl, hready⟩
  | ok _ =>
    cases hscript : isScript source with
    | true =>
      obtain ⟨hcompiler, hcompiler'⟩ := hfollows hscript
      have hread := (hprepared'.readFile_script hd hfree hfree' hleaf hscript).trans
        (hprepared.readFile_script hd hfree hfree' hleaf hscript).symm
      obtain ⟨hcompiled, hafter⟩ := compile_alike hready hclear hcompiler hcompiler' hread
      simp only [if_true, Act.answer_bind, Act.after_bind, hcompiled]
      cases (c.compile source target).answer h' <;> exact ⟨rfl, hafter⟩
    | false =>
      have hread := (hprepared'.readFile hd hfree hleaf).trans
        (hprepared.readFile hd hfree hleaf).symm
      exact copyTo_alike hready hclear hread

end OneFile

/-! ### Places that a target does not come by -/

/-- What the way down some names and one component more comes by, where there are no links. -/
theorem meets_target {names others : List String} {last : Component}
    (hfree : ∀ ns, d.link? (base ++ ns) = none) (hlast : (∃ m, last = .name m) ∨ last = .up)
    (h : d.Meets base (names.map .name ++ [last]) (base ++ others)) :
    others <+: names ∨ ∃ m, last = .name m ∧ others = names ++ [m] := by
  rcases hlast with ⟨m, rfl⟩ | rfl
  · rw [← List.map_singleton (f := Component.name), ← List.map_append] at h
    obtain ⟨front, hfront, hsame⟩ := meets_names hfree h
    obtain rfl := List.append_cancel_left hsame
    exact (List.prefix_concat_iff.1 hfront).symm.imp_right fun heq => ⟨m, rfl, heq⟩
  · refine Or.inl ?_
    rcases h.of_append with h | ⟨mid, hmid, h⟩
    · obtain ⟨front, hfront, hsame⟩ := meets_names hfree h
      exact List.append_cancel_left hsame ▸ hfront
    · obtain rfl := (leads_names names hfree).1 hmid
      -- the step up from the names leads to a part of them, or of the base
      have hup : ∀ {mid met}, d.Meets mid [.up] met → met <+: mid := by
        intro mid met h
        cases h with
        | stop => exact List.prefix_rfl
        | up h =>
          cases h
          exact List.dropLast_prefix _
      exact (List.prefix_append_right_inj base).1 (hup h)

/-- The name of its bytecode begins no way to what is found behind a script, and it ends none. -/
theorem not_prefix_of_behind {front front' : List String} {n n' m : String}
    (hn : Path.Bears n Sync.scriptExtension) (hm : lastComponent n = .name m)
    (hbehind : front ++ [n] < front' ++ [n']) :
    ¬ front ++ [m] <+: front' ∧
      ¬ ∃ m', lastComponent n' = .name m' ∧ front ++ [m] = front' ++ [m'] := by
  have hnm := pairNames_of_bears hn hm
  constructor
  · rintro ⟨more, rfl⟩
    refine lt_asymm hbehind ?_
    simp only [List.append_assoc]
    exact List.append_left_lt (List.cons_lt_cons_iff.2 (Or.inl hnm.lt))
  · rintro ⟨m', hm', hsame⟩
    obtain ⟨rfl, hlast⟩ := List.append_inj' hsame rfl
    obtain rfl : m = m' := by simpa using hlast
    rcases lastComponent_eq_iff.1 (hm.trans hm'.symm) with rfl | hpair | hpair
    · exact lt_irrefl _ hbehind
    · exact lt_asymm hbehind (List.append_left_lt (List.cons_lt_cons_iff.2 (Or.inl hpair.lt)))
    · obtain ⟨stem, -, -, -, rfl⟩ := hpair
      exact not_bears_bytecode stem hn

/-- The target of what is found behind a script does not come by the place of its bytecode, as long
as nothing stands there. -/
theorem not_meets_behind (hd : d.WellFormed) (hbad : .leaf bad ∈ d.leavesBelow workspace)
    (hscript : isScript bad = true) (hother : .leaf other ∈ d.leavesBelow workspace)
    (hbehind : Before workspace bad other)
    (htarget : target? workspace destination bad = some target)
    (htarget' : target? workspace destination other = some target') (he : e.WellFormed)
    (hfree : e.LinkFreeBelow destination) {parent : Path} {folder : Location} {m : String}
    (hname : target.components = parent.components ++ [.name m])
    (henters : e.Enters parent.components folder) (hreaches : e.Reaches target loc)
    (hnone : e.node? loc = none) : ¬ e.Meets (e.origin target') target'.components loc := by
  have hws := components_ne_nil_of_leaf hbad
  obtain ⟨front, n, hnames, rfl⟩ := exists_names_of_leaf hd hbad
  obtain ⟨front', n', hnames', rfl⟩ := exists_names_of_leaf hd hother
  have hsource := Path.components_descend (p := workspace) hnames
  have hsource' := Path.components_descend (p := workspace) hnames'
  obtain ⟨r, hr, rfl⟩ := target?_eq_some.1 htarget
  obtain ⟨r', hr', rfl⟩ := target?_eq_some.1 htarget'
  obtain ⟨hbears, hc⟩ := components_targetOf destination hws hnames hsource hr
  obtain ⟨-, hc'⟩ := components_targetOf destination hws hnames' hsource' hr'
  obtain ⟨hparent, hlast⟩ := List.append_inj' (hname.symm.trans hc) rfl
  have hm : lastComponent n = .name m := by simpa using hlast.symm
  obtain ⟨hnotBelow, hnotAt⟩ :=
    not_prefix_of_behind (hbears.1 hscript) hm (hbehind.lt hsource hsource')
  have hbelow : (targetOf destination (workspace.descend (front ++ [n])) r).components =
      destination.components ++ (front ++ [m]).map .name := by
    rw [hc, hm]
    simp
  obtain ⟨base, hbase, rfl⟩ := (reaches_below hfree hbelow).1 hreaches
  rw [List.append_assoc] at hc'
  -- both targets are read from where the destination is
  have horigin : ∀ {p : Path} {ds : List Component}, p.components = destination.components ++ ds →
      ds.head? ≠ some .root → e.origin p = e.origin destination := by
    intro p ds hp hds
    rw [origin_eq, origin_eq, hp, originOf_append e fun _ => hds]
  have horigin' := horigin hc' (by
    cases front' with
    | nil => rcases lastComponent_eq_name_or n' with ⟨m', hm'⟩ | hup <;> simp [*]
    | cons first rest => simp)
  intro hmeets
  rw [hc', horigin'] at hmeets
  rcases hmeets.of_append with hmeets | ⟨mid, hmid, hmeets⟩
  · -- nothing is missing on the way to the destination
    rw [← horigin hparent (by cases front <;> simp)] at hmeets
    have hfolder := henters.meets he (hparent ▸ hmeets.append _)
    rw [hnone] at hfolder
    cases hfolder
  · obtain rfl : mid = base := (leads_origin_iff.1 hmid).unique hbase
    rcases meets_target (hfree mid hbase) (lastComponent_eq_name_or n') hmeets with
      hprefix | ⟨m', hm', hsame⟩
    · exact hnotBelow hprefix
    · exact hnotAt ⟨m', hm', hsame⟩

/-! ### What another file leaves -/

/-- Where something of another kind stands after a script was dealt with, nothing stood, and the
target of what is found behind it does not come by that place. -/
theorem not_meets_of_differing (hcompiler : c.WritesTarget) (hd : d.WellFormed)
    (hbad : .leaf bad ∈ d.leavesBelow workspace) (hscript : isScript bad = true)
    (hother : .leaf other ∈ d.leavesBelow workspace) (hbehind : Before workspace bad other)
    (htarget : target? workspace destination bad = some target)
    (htarget' : target? workspace destination other = some target')
    (hprogress : Progress workspace destination d h.disk) (hfree : d.LinkFreeBelow destination)
    (hdiffer : Differing ((Directory.ensureParent target).after h).disk
      ((installAt c bad target).after h).disk loc) :
    ¬ h.disk.Meets (h.disk.origin target') target'.components loc := by
  have hgrows := Directory.grows_ensureParent target h
  have hprepared := hprogress.ensureParent target
  cases hready : (Directory.ensureParent target).answer h with
  | error e => simp [installAt, hready, Differing] at hdiffer
  | ok _ =>
    have hafter : (installAt c bad target).after h =
        (c.compile bad target).after ((Directory.ensureParent target).after h) := by
      simp only [installAt, Act.after_bind, hready, hscript, if_true]
      split <;> rfl
    obtain ⟨deeds, hdeeds, hall⟩ := hcompiler bad target ((Directory.ensureParent target).after h)
    rw [hafter] at hdiffer
    obtain ⟨hnone, hreaches, hreadable, cs, m, hname⟩ :=
      hdeeds.differing (hprepared.wellFormed hd) hall hdiffer
    obtain ⟨parent, folder, rfl, henters⟩ :=
      Directory.exists_enters_of_ensureParent hname hready hreadable
    intro hmeets
    exact not_meets_behind hd hbad hscript hother hbehind htarget htarget' (hprepared.wellFormed hd)
      (hfree.grows hprepared.grows) hname henters hreaches hnone
      (hmeets.origin_congr hgrows.start hgrows.links)

/-- What is found behind a script has a target that avoids the places where the disks come to
differ, whatever two compilers make of the script. -/
theorem avoids_differing (hcompiler : c.WritesTarget) (hcompiler' : c'.WritesTarget)
    (hd : d.WellFormed) (hbad : .leaf bad ∈ d.leavesBelow workspace) (hscript : isScript bad = true)
    (hother : .leaf other ∈ d.leavesBelow workspace) (hbehind : Before workspace bad other)
    (htarget : target? workspace destination bad = some target)
    (htarget' : target? workspace destination other = some target')
    (hprogress : Progress workspace destination d h.disk)
    (hprogress' : Progress workspace destination d k.disk) (hfree : d.LinkFreeBelow destination)
    (halike : AlikeBut (fun _ => False) h.disk k.disk) :
    h.disk.Avoids target' (Differing ((installAt c bad target).after h).disk
      ((installAt c' bad target).after k).disk) := by
  have hnowhere : h.disk.Avoids target fun _ => False := fun _ _ => id
  obtain ⟨-, hready⟩ :=
    (blind_alikeBut _).ensureParent halike (List.dropLast_prefix _) hnowhere
  intro met hmet hdiffer
  have hsame : ¬ Differing ((Directory.ensureParent target).after h).disk
      ((installAt c bad target).after h).disk met := fun hone =>
    not_meets_of_differing hcompiler hd hbad hscript hother hbehind htarget htarget' hprogress hfree
      hone hmet
  have hsame' : ¬ Differing ((Directory.ensureParent target).after k).disk
      ((installAt c' bad target).after k).disk met := fun hone =>
    not_meets_of_differing hcompiler' hd hbad hscript hother hbehind htarget htarget' hprogress'
      hfree hone (hmet.origin_congr halike.start halike.links)
  exact hdiffer ((not_not.1 hsame').trans ((hready.kinds met id).trans (not_not.1 hsame).symm))

/-- When a script was dealt with by two compilers, the disks are alike but for places that nothing
behind it comes by. -/
theorem exists_alike_behind (hcompiler : c.WritesTarget) (hcompiler' : c'.WritesTarget)
    (hd : d.WellFormed) (hbad : .leaf bad ∈ d.leavesBelow workspace) (hscript : isScript bad = true)
    (hprogress : Progress workspace destination d h.disk)
    (hprogress' : Progress workspace destination d k.disk) (hfree : d.LinkFreeBelow destination)
    (halike : AlikeBut (fun _ => False) h.disk k.disk) :
    ∃ places, AlikeBut places ((installAll c workspace destination [bad]).after h).disk
        ((installAll c' workspace destination [bad]).after k).disk ∧
      ∀ other, .leaf other ∈ d.leavesBelow workspace → Before workspace bad other → ∀ target',
        target? workspace destination other = some target' →
          ((installAll c workspace destination [bad]).after h).disk.Avoids target' places := by
  obtain ⟨target, htarget⟩ := exists_target_of_leaf destination hd hbad
  have hinstalls := installAt_installs hcompiler htarget (List.mem_singleton_self bad)
  have hgrows := hinstalls.grows h
  have hgrows' := (installAt_installs hcompiler' htarget (List.mem_singleton_self bad)).grows k
  rw [disk_after_installAll_one c h htarget, disk_after_installAll_one c' k htarget]
  refine ⟨_, alikeBut_differing ?_ fun loc => ?_, fun other hother hbehind target' htarget' => ?_⟩
  · exact hgrows'.start.trans (halike.start.trans hgrows.start.symm)
  · exact (hgrows'.links loc).trans ((halike.links loc).trans (hgrows.links loc).symm)
  · exact (avoids_differing hcompiler hcompiler' hd hbad hscript hother hbehind htarget htarget'
      hprogress hprogress' hfree halike).grows hgrows

/-! ### All files on two disks -/

/-- What becomes of files whose targets avoid the places where the disks differ is the same on both,
and so are the disks that are left but for these places. -/
theorem outcomesOf_alike (hcompiler : c.WritesTarget) (hcompiler' : c'.WritesTarget)
    (hd : d.WellFormed) (hfree : d.LinkFreeBelow workspace) (hfree' : d.LinkFreeBelow destination)
    (hsources : sources ⊆ found d workspace)
    (hfollows : ∀ s ∈ sources, isScript s = true → c.Follows f s ∧ c'.Follows f s)
    (hprogress : Progress workspace destination d h.disk)
    (hprogress' : Progress workspace destination d k.disk)
    (halike : AlikeBut places h.disk k.disk)
    (havoids : ∀ s ∈ sources, ∀ target, target? workspace destination s = some target →
      h.disk.Avoids target places) :
    outcomesOf c' workspace destination sources k = outcomesOf c workspace destination sources h ∧
      AlikeBut places ((installAll c workspace destination sources).after h).disk
        ((installAll c' workspace destination sources).after k).disk := by
  induction sources generalizing h k with
  | nil => exact ⟨rfl, halike⟩
  | cons source rest ih =>
    have hone : [source] ⊆ found d workspace := by simpa using hsources (by simp)
    have hleaf := mem_found.1 (hsources (List.mem_cons_self (a := source) (l := rest)))
    obtain ⟨target, htarget⟩ := exists_target_of_leaf destination hd hleaf
    obtain ⟨hanswer, hafter⟩ := installAt_alike halike (havoids source (by simp) target htarget)
      hd hfree hfree' hleaf (hfollows source (by simp)) hprogress hprogress'
    rw [← disk_after_installAll_one c h htarget, ← disk_after_installAll_one c' k htarget] at hafter
    have hstep := hprogress.installAll hcompiler hone
    have hstep' := hprogress'.installAll hcompiler' hone
    have hgrows : h.disk.Grows ((installAll c workspace destination [source]).after h).disk :=
      (installAll_installs hcompiler [source]).grows h
    obtain ⟨hrest, hdisks⟩ := ih (fun s hs => hsources (by simp [hs]))
      (fun s hs => hfollows s (by simp [hs])) hstep hstep' hafter
      fun s hs t ht => (havoids s (by simp [hs]) t ht).grows hgrows
    rw [after_installAll_cons, after_installAll_cons c', outcomesOf, outcomesOf, htarget]
    simp only [hanswer, hrest]
    exact ⟨trivial, hdisks⟩

/-- Whatever is made of one source, the others come to the same. -/
theorem outcomes_isolated (hcompiler : c.WritesTarget) (hcompiler' : c'.WritesTarget)
    (hd : h.disk.WellFormed) (hfree : h.disk.LinkFreeBelow workspace)
    (hfree' : h.disk.LinkFreeBelow destination)
    (hfollows : ∀ s, .leaf s ∈ h.disk.leavesBelow workspace → s ≠ bad →
      c.Follows f s ∧ c'.Follows f s) :
    (outcomes c' workspace destination h).filter (fun o => o.source ≠ bad) =
      (outcomes c workspace destination h).filter fun o => o.source ≠ bad := by
  have hstart : Progress workspace destination h.disk (reported workspace h).disk := by
    rw [disk_reported]
    exact .refl _ _ _
  by_cases hbad : bad ∈ found h.disk workspace ∧ isScript bad = true
  · obtain ⟨hmem, hscript⟩ := hbad
    have hascends : (found h.disk workspace).Pairwise (Before workspace) :=
      walkWithin_ascends hd _ workspace
    obtain ⟨front, behind, hfound⟩ := List.append_of_mem hmem
    rw [hfound] at hascends
    obtain ⟨-, hascends', hbefore⟩ := List.pairwise_append.1 hascends
    have hbehind := (List.pairwise_cons.1 hascends').1
    have hsources : front ++ bad :: behind ⊆ found h.disk workspace := by rw [hfound]; simp
    have hfront : front ⊆ found h.disk workspace := fun s hs => hsources (by simp [hs])
    have hrest : behind ⊆ found h.disk workspace := fun s hs => hsources (by simp [hs])
    have hfollows' : ∀ {s}, s ∈ found h.disk workspace → Before workspace s bad ∨
        Before workspace bad s → isScript s = true → c.Follows f s ∧ c'.Follows f s := by
      intro s hs hother _
      refine hfollows s (mem_found.1 hs) ?_
      rintro rfl
      exact hother.elim (fun hself => hself.differ rfl) fun hself => hself.differ rfl
    obtain ⟨target, htarget⟩ := exists_target_of_leaf destination hd (mem_found.1 hmem)
    -- up to the source nothing differs
    obtain ⟨hsame, halike⟩ := outcomesOf_alike hcompiler hcompiler' hd hfree hfree' hfront
      (fun s hs => hfollows' (hfront hs) (Or.inl (hbefore s hs bad (by simp)))) hstart hstart
      (.refl (fun _ => False) _) (fun _ _ _ _ _ _ => id)
    have hprogress := hstart.installAll hcompiler hfront
    have hprogress' := hstart.installAll hcompiler' hfront
    have hone : [bad] ⊆ found h.disk workspace := by simpa using hmem
    -- and behind it only what is not come by
    obtain ⟨places, hdisks, havoids⟩ := exists_alike_behind hcompiler hcompiler' hd
      (mem_found.1 hmem) hscript hprogress hprogress' hfree' halike
    obtain ⟨hsame', -⟩ := outcomesOf_alike hcompiler hcompiler' hd hfree hfree' hrest
      (fun s hs => hfollows' (hrest hs) (Or.inr (hbehind s hs)))
      (hprogress.installAll hcompiler hone) (hprogress'.installAll hcompiler' hone) hdisks
      fun s hs t ht => havoids s (mem_found.1 (hrest hs)) (hbehind s hs) t ht
    rw [outcomes, outcomes, hfound, outcomesOf_append, outcomesOf_append, hsame, outcomesOf,
      outcomesOf, htarget, List.filter_append, List.filter_append]
    simp [hsame']
  · obtain ⟨hsame, -⟩ := outcomesOf_alike hcompiler hcompiler' hd hfree hfree'
      (List.Subset.refl (found h.disk workspace))
      (fun s hs hscript => hfollows s (mem_found.1 hs) fun heq => hbad (heq ▸ ⟨hs, hscript⟩))
      hstart hstart (.refl (fun _ => False) _) (fun _ _ _ _ _ _ => id)
    rw [outcomes, outcomes, hsame]

/-- **Accounts and isolation.**  The report of an installation says what became of each file that
is found in the workspace, once for each file and in the order of components: a script that was
compiled and a file that was copied are listed with their target, and what was not installed with
the reason.  What became of a file is what came of installing it at its target on the host that the
files before it left; none is passed over.

Where there are no links at or below the workspace and the destination, two compilers that follow
the same rule on all sources but one come to the same for all the others. -/
theorem install_outcomes (workspace destination : Path) {h : Host} (hd : h.disk.WellFormed) :
    (∀ compiler : Compiler,
      (install compiler workspace destination).answer h =
          .of (outcomes compiler workspace destination h) ∧
        (outcomes compiler workspace destination h).map Outcome.source = found h.disk workspace ∧
        (found h.disk workspace).Pairwise Path.Precedes ∧
        ∀ front source behind, found h.disk workspace = front ++ source :: behind →
          ∃ target, target? workspace destination source = some target ∧
            (outcomes compiler workspace destination h)[front.length]? = some ⟨source, target,
              (installAt compiler source target).answer
                ((installAll compiler workspace destination front).after (reported workspace h))⟩) ∧
      (h.disk.LinkFreeBelow workspace → h.disk.LinkFreeBelow destination →
        ∀ (c c' : Compiler) (f : Path → Path → Except Fault ByteArray → Compiler.Move) (bad : Path),
          c.WritesTarget → c'.WritesTarget →
            (∀ s, .leaf s ∈ h.disk.leavesBelow workspace → s ≠ bad →
              c.Follows f s ∧ c'.Follows f s) →
              (outcomes c' workspace destination h).filter (fun o => o.source ≠ bad) =
                (outcomes c workspace destination h).filter fun o => o.source ≠ bad) := by
  refine ⟨fun compiler => ⟨install_report .., map_source_outcomes compiler workspace destination hd,
    found_ascends hd workspace, fun _ _ _ hfound => outcomes_at compiler destination hd hfound⟩, ?_⟩
  intro hfree hfree' c c' f bad hcompiler hcompiler' hfollows
  exact outcomes_isolated hcompiler hcompiler' hd hfree hfree' hfollows

/-! ### Another file, and links to its place -/

/-- A host with a script in a workspace, and something else of the name of a script behind it. -/
def neighbourHost (node : Node) : Host where
  disk := {
    nodes := [(["w"], .folder), (["w", "a.rb"], .file "x".toUTF8 1 0o644), (["w", "b.rb"], node)]
    start := []
    clock := 2 }
  transcript := []

theorem leaves_neighbourHost {node : Node}
    (hnode : (neighbourHost node).disk.isFolder ⟨"/w/b.rb"⟩ = false) :
    (neighbourHost node).disk.leavesBelow ⟨"/w"⟩ = [.leaf ⟨"/w/a.rb"⟩, .leaf ⟨"/w/b.rb"⟩] := by
  have hnames : (neighbourHost node).disk.names ⟨"/w"⟩ = .ok ["a.rb", "b.rb"] :=
    names_of_entries ["w"] rfl rfl rfl (by decide)
  have hscript : (Path.mk "/w").child "a.rb" = ⟨"/w/a.rb"⟩ := by decide
  have hother : (Path.mk "/w").child "b.rb" = ⟨"/w/b.rb"⟩ := by decide
  rw [leavesBelow_of_flat hnames]
  · rw [List.map_cons, List.map_cons, hscript, hother, List.map_nil]
  · intro n hn
    rcases List.mem_pair.1 hn with rfl | rfl
    · rw [hscript]
      rfl
    · rw [hother, hnode]

theorem reaches_top {p : Path} (n : String) (hp : p.components = [.root, .name n])
    (hlink : d.link? [n] = none) : d.Reaches p [n] := by
  rw [Reaches, hp]
  exact .root (.name hlink (.done _))

/-- No link stands at or below a place on top of the disk if no entry says so. -/
theorem linkFreeBelow_top {p : Path} (n : String) (hp : p.components = [.root, .name n])
    (hlinks : ∀ entry ∈ d.nodes, entry.2.isLink = true → entry.1.head? ≠ some n) :
    d.LinkFreeBelow p := by
  have hfree : ∀ names, d.link? ([n] ++ names) = none := by
    intro names
    rw [Option.eq_none_iff_forall_ne_some]
    intro target hlink
    exact hlinks _ (mem_nodes_of_node? (by simp) (link?_eq_some_iff.1 hlink)) rfl rfl
  intro base hbase
  obtain rfl := hbase.unique (reaches_top n hp (by simpa using hfree []))
  exact hfree

/-- A script beside another one is compiled, whether that one is compiled or refused. -/
theorem install_outcomes_neighbourHost :
    let h := neighbourHost (.file "y".toUTF8 1 0o644)
    h.disk.WellFormed ∧ h.disk.LinkFreeBelow ⟨"/w"⟩ ∧ h.disk.LinkFreeBelow ⟨"/out"⟩ ∧
      (outcomes (.trial []) ⟨"/w"⟩ ⟨"/out"⟩ h).map Outcome.source = [⟨"/w/a.rb"⟩, ⟨"/w/b.rb"⟩] ∧
        (outcomes (.trial [("a.rb", "no")]) ⟨"/w"⟩ ⟨"/out"⟩ h).filter
            (fun o => o.source ≠ ⟨"/w/a.rb"⟩) =
          (outcomes (.trial []) ⟨"/w"⟩ ⟨"/out"⟩ h).filter fun o => o.source ≠ ⟨"/w/a.rb"⟩ := by
  intro h
  have hd : h.disk.WellFormed := by decide
  have hfree : h.disk.LinkFreeBelow ⟨"/w"⟩ := linkFreeBelow_top "w" (by decide) (by decide)
  have hfree' : h.disk.LinkFreeBelow ⟨"/out"⟩ := linkFreeBelow_top "out" (by decide) (by decide)
  have hleaves : h.disk.leavesBelow ⟨"/w"⟩ = [.leaf ⟨"/w/a.rb"⟩, .leaf ⟨"/w/b.rb"⟩] :=
    leaves_neighbourHost (by decide +kernel)
  obtain ⟨haccounts, hisolated⟩ := install_outcomes ⟨"/w"⟩ ⟨"/out"⟩ hd
  obtain ⟨-, hsources, -, -⟩ := haccounts (.trial [])
  rw [found, hleaves] at hsources
  refine ⟨hd, hfree, hfree', hsources, ?_⟩
  refine hisolated hfree hfree' _ _ (Compiler.trialMove []) ⟨"/w/a.rb"⟩
    (Compiler.trial_writesTarget _) (Compiler.trial_writesTarget _) fun s hleaf hs => ?_
  have hmem : s = ⟨"/w/a.rb"⟩ ∨ s = ⟨"/w/b.rb"⟩ := by simpa [hleaves] using hleaf
  obtain rfl := hmem.resolve_left hs
  exact ⟨Compiler.trial_follows rfl, Compiler.trial_follows (by decide)⟩

/-- Two compilers that write nothing but their target and do the same with all sources but one come
to something else for another source, whose target is not that of the one. -/
structure Leaks (c c' : Compiler) (bad : Path) (h : Host) (workspace destination : Path) :
    Prop where
  wellFormed : h.disk.WellFormed
  beside : Sync.Beside h.disk workspace destination
  writesTarget : c.WritesTarget ∧ c'.WritesTarget
  same : ∀ s, .leaf s ∈ h.disk.leavesBelow workspace → s ≠ bad → c'.compile s = c.compile s
  differ : ∃ o : Outcome, o.source ≠ bad ∧ target? workspace destination bad ≠ some o.target ∧
    o ∈ outcomes c workspace destination h ∧ o ∉ outcomes c' workspace destination h

theorem beside_of_tops (hlink : d.link? ["w"] = none) (hlink' : d.link? ["out"] = none) :
    Sync.Beside d ⟨"/w"⟩ ⟨"/out"⟩ := by
  intro base base' hbase hbase'
  obtain rfl := hbase.unique (reaches_top "w" (by decide) hlink)
  obtain rfl := hbase'.unique (reaches_top "out" (by decide) hlink')
  decide

namespace Compiler

/-- With other refusals that say the same about a script, the compiler for trials does the same
with it. -/
theorem trial_compile_congr {refusals others : List (String × String)}
    (hsame : (source.fileName?.bind fun name => refusals.lookup name) =
      source.fileName?.bind fun name => others.lookup name) :
    (trial refusals).compile source = (trial others).compile source := by
  funext target
  simp only [trial, hsame]

/-- A compiler for trials that compiles a script only where there is the bytecode of another. -/
def requiring (script bytecode : Path) (refusals : List (String × String)) : Compiler where
  compile source target := do
    if source = script ∧ (← Act.disk).isFile bytecode = false then
      return .error (.refused source "unresolved")
    else
      (trial refusals).compile source target

theorem requiring_writesTarget (script bytecode : Path) (refusals : List (String × String)) :
    (requiring script bytecode refusals).WritesTarget := by
  intro source target
  refine .bind .disk fun d => ?_
  split
  · exact .pure _
  · exact trial_writesTarget refusals source target

theorem requiring_compile_congr {script bytecode : Path} {refusals others : List (String × String)}
    (hsame : (source.fileName?.bind fun name => refusals.lookup name) =
      source.fileName?.bind fun name => others.lookup name) :
    (requiring script bytecode refusals).compile source =
      (requiring script bytecode others).compile source := by
  simp only [requiring, trial_compile_congr hsame]

end Compiler

/-- A host with a script, and beside it a directory of the name of its bytecode in a directory `b`,
which is a link back to the destination where it is to be installed. -/
def nestedHost : Host where
  disk := {
    nodes := [(["w"], .folder), (["w", "a.rb"], .file "x".toUTF8 1 0o644), (["w", "b"], .folder),
      (["w", "b", "a.mrb"], .folder), (["w", "b", "a.mrb", "t"], .file "y".toUTF8 1 0o644),
      (["out"], .folder), (["out", "b"], .link ".")]
    start := []
    clock := 2 }
  transcript := []

theorem leaves_nestedHost :
    nestedHost.disk.leavesBelow ⟨"/w"⟩ = [.leaf ⟨"/w/a.rb"⟩, .leaf ⟨"/w/b/a.mrb/t"⟩] := by
  have houter : nestedHost.disk.names ⟨"/w"⟩ = .ok ["a.rb", "b"] :=
    names_of_entries ["w"] rfl rfl rfl (by decide)
  have hmiddle : nestedHost.disk.names ⟨"/w/b"⟩ = .ok ["a.mrb"] :=
    names_of_entries ["w", "b"] rfl rfl rfl (by decide)
  have hinner : nestedHost.disk.names ⟨"/w/b/a.mrb"⟩ = .ok ["t"] :=
    names_of_entries ["w", "b", "a.mrb"] rfl rfl rfl (by decide)
  have hchildren : (Path.mk "/w").child "a.rb" = ⟨"/w/a.rb"⟩ ∧ (Path.mk "/w").child "b" = ⟨"/w/b"⟩ ∧
      (Path.mk "/w/b").child "a.mrb" = ⟨"/w/b/a.mrb"⟩ ∧
        (Path.mk "/w/b/a.mrb").child "t" = ⟨"/w/b/a.mrb/t"⟩ := by decide
  have hfolders : nestedHost.disk.isFolder ⟨"/w/a.rb"⟩ = false ∧
      nestedHost.disk.isFolder ⟨"/w/b"⟩ = true ∧ nestedHost.disk.isFolder ⟨"/w/b/a.mrb"⟩ = true ∧
        nestedHost.disk.isFolder ⟨"/w/b/a.mrb/t"⟩ = false := by decide +kernel
  have hbound : nestedHost.disk.walkBound = 202 + 1 + 1 + 1 := by decide +kernel
  rw [leavesBelow, hbound, walkWithin_of_names houter]
  simp [hchildren, hfolders, walkWithin_of_names hmiddle, walkWithin_of_names hinner]

/-- As the script is compiled, there is a file where a directory is to be made. -/
theorem leaks_nestedHost :
    Leaks (.trial []) (.trial [("a.rb", "no")]) ⟨"/w/a.rb"⟩ nestedHost ⟨"/w"⟩ ⟨"/out"⟩ where
  wellFormed := by decide
  beside := beside_of_tops rfl rfl
  writesTarget := ⟨Compiler.trial_writesTarget _, Compiler.trial_writesTarget _⟩
  same s hleaf hs := by
    have hmem : s = ⟨"/w/a.rb"⟩ ∨ s = ⟨"/w/b/a.mrb/t"⟩ := by simpa [leaves_nestedHost] using hleaf
    obtain rfl := hmem.resolve_left hs
    exact Compiler.trial_compile_congr (by decide)
  differ := by
    refine ⟨⟨⟨"/w/b/a.mrb/t"⟩, ⟨"/out/b/a.mrb/t"⟩,
      .error (.prepareDirectory ⟨"/out/b/a.mrb/t"⟩ (.notDirectory ⟨"/out/b/a.mrb"⟩))⟩,
      by decide, by decide +kernel, ?_⟩
    simp only [outcomes, found, reported, leaves_nestedHost]
    decide +kernel

/-- Another script of the host is compiled beside the first one, and is not without its
bytecode. -/
theorem leaks_neighbourHost {node : Node}
    (hnode : (neighbourHost node).disk.isFolder ⟨"/w/b.rb"⟩ = false)
    (hd : (neighbourHost node).disk.WellFormed)
    (hlink : (neighbourHost node).disk.link? ["w"] = none)
    (hlink' : (neighbourHost node).disk.link? ["out"] = none)
    (hcompiler : c.WritesTarget ∧ c'.WritesTarget)
    (hsame : c'.compile ⟨"/w/b.rb"⟩ = c.compile ⟨"/w/b.rb"⟩)
    (hcompiled : ⟨⟨"/w/b.rb"⟩, ⟨"/out/b.mrb"⟩, .ok ()⟩ ∈
      outcomesOf c ⟨"/w"⟩ ⟨"/out"⟩ [⟨"/w/a.rb"⟩, ⟨"/w/b.rb"⟩] (neighbourHost node))
    (hrefused : ⟨⟨"/w/b.rb"⟩, ⟨"/out/b.mrb"⟩, .ok ()⟩ ∉
      outcomesOf c' ⟨"/w"⟩ ⟨"/out"⟩ [⟨"/w/a.rb"⟩, ⟨"/w/b.rb"⟩] (neighbourHost node)) :
    Leaks c c' ⟨"/w/a.rb"⟩ (neighbourHost node) ⟨"/w"⟩ ⟨"/out"⟩ where
  wellFormed := hd
  beside := beside_of_tops hlink hlink'
  writesTarget := hcompiler
  same s hleaf hs := by
    have hmem : s = ⟨"/w/a.rb"⟩ ∨ s = ⟨"/w/b.rb"⟩ := by
      simpa [leaves_neighbourHost hnode] using hleaf
    obtain rfl := hmem.resolve_left hs
    exact hsame
  differ := by
    refine ⟨⟨⟨"/w/b.rb"⟩, ⟨"/out/b.mrb"⟩, .ok ()⟩, by decide, by decide +kernel, ?_⟩
    have hreport : reported ⟨"/w"⟩ (neighbourHost node) = neighbourHost node := by
      rw [reported, leaves_neighbourHost hnode]
      rfl
    simp only [outcomes, found, hreport, leaves_neighbourHost hnode]
    exact ⟨hcompiled, hrefused⟩

/-- **Links and reading.**  With a link in the destination that leads to the target of a script, a
file can be installed or not as the script is refused or compiled, and with such a link in the
workspace a file can be read or not, though the destination lies beside the workspace.  Without any
links another script is compiled or not by a compiler that looks at the target of the first. -/
theorem leaks_through_links_and_reading :
    (nestedHost.disk.LinkFreeBelow ⟨"/w"⟩ ∧
      Leaks (.trial []) (.trial [("a.rb", "no")]) ⟨"/w/a.rb"⟩ nestedHost ⟨"/w"⟩ ⟨"/out"⟩) ∧
    ((neighbourHost (.link "../out/a.mrb")).disk.LinkFreeBelow ⟨"/out"⟩ ∧
      Leaks (.trial []) (.trial [("a.rb", "no")]) ⟨"/w/a.rb"⟩
        (neighbourHost (.link "../out/a.mrb")) ⟨"/w"⟩ ⟨"/out"⟩) ∧
    (neighbourHost (.file "y".toUTF8 1 0o644)).disk.LinkFreeBelow ⟨"/w"⟩ ∧
      (neighbourHost (.file "y".toUTF8 1 0o644)).disk.LinkFreeBelow ⟨"/out"⟩ ∧
      Leaks (.requiring ⟨"/w/b.rb"⟩ ⟨"/out/a.mrb"⟩ [])
        (.requiring ⟨"/w/b.rb"⟩ ⟨"/out/a.mrb"⟩ [("a.rb", "no")]) ⟨"/w/a.rb"⟩
        (neighbourHost (.file "y".toUTF8 1 0o644)) ⟨"/w"⟩ ⟨"/out"⟩ := by
  refine ⟨⟨linkFreeBelow_top "w" (by decide) (by decide), leaks_nestedHost⟩,
    ⟨linkFreeBelow_top "out" (by decide) (by decide), ?_⟩,
    linkFreeBelow_top "w" (by decide) (by decide), linkFreeBelow_top "out" (by decide) (by decide),
    ?_⟩
  · exact leaks_neighbourHost (by decide +kernel) (by decide) rfl rfl
      ⟨Compiler.trial_writesTarget _, Compiler.trial_writesTarget _⟩
      (Compiler.trial_compile_congr (by decide)) (by decide +kernel) (by decide +kernel)
  · exact leaks_neighbourHost (by decide +kernel) (by decide) rfl rfl
      ⟨Compiler.requiring_writesTarget _ _ _, Compiler.requiring_writesTarget _ _ _⟩
      (Compiler.requiring_compile_congr (by decide)) (by decide +kernel) (by decide +kernel)

end GemCourier.Bytecode
