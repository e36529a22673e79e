/-
GemCourier/Proofs/Bytecode/Reading.lean

What can be read of a workspace while its files are installed.

Nothing is missing on the way to a file that was found at first, so it can be
read later as it could then.  A script even reads the same: no file is installed
under the name of a script, since the target of a script bears the extension of
bytecode and that of any other file has its own name.

Main results: `avoids_of_leaf`, `Progress.readFile`, `Progress.readFile_script`.
-/
import GemCourier.Proofs.Bytecode.Collisions
import GemCourier.Proofs.Bytecode.Outcomes
import GemCourier.Proofs.Bytecode.Twins

namespace GemCourier.Bytecode

open Disk

variable {c : Compiler} {workspace destination source other : Path} {d d' : Disk} {k : Host}
  {loc : Location} {sources : List Path}

/-- Files of the workspace were installed on the first disk, which led to the second. -/
def Progress (workspace destination : Path) (d d' : Disk) : Prop :=
  ∃ deeds, d.Does deeds d' ∧ ∀ deed ∈ deeds, Installs workspace destination (found d workspace) deed

theorem Progress.refl (workspace destination : Path) (d : Disk) :
    Progress workspace destination d d :=
  ⟨[], .nothing d, by simp⟩

theorem Progress.grows (h : Progress workspace destination d d') : d.Grows d' := by
  obtain ⟨deeds, hdeeds, -⟩ := h
  exact hdeeds.grows

theorem Progress.wellFormed (h : Progress workspace destination d d') (hd : d.WellFormed) :
    d'.WellFormed := by
  obtain ⟨deeds, hdeeds, -⟩ := h
  exact hdeeds.wellFormed hd

theorem Progress.after {α : Type} {step : Act α} (h : Progress workspace destination d k.disk)
    (hstep : step.Does (Installs workspace destination (found d workspace))) :
    Progress workspace destination d (step.after k).disk := by
  obtain ⟨deeds, hdeeds, hall⟩ := h
  obtain ⟨more, hmore, hall'⟩ := hstep k
  refine ⟨deeds ++ more, hdeeds.append hmore, fun deed hdeed => ?_⟩
  exact (List.mem_append.1 hdeed).elim (hall deed) (hall' deed)

theorem Progress.ensureParent (h : Progress workspace destination d k.disk) (target : Path) :
    Progress workspace destination d ((Directory.ensureParent target).after k).disk :=
  h.after (Directory.does_ensureParent fun _ _ => trivial)

theorem Progress.installAll (hcompiler : c.WritesTarget) (hsources : sources ⊆ found d workspace)
    (hprogress : Progress workspace destination d k.disk) :
    Progress workspace destination d ((installAll c workspace destination sources).after k).disk :=
  hprogress.after ((installAll_installs hcompiler sources).mono fun _ hdeed => hdeed.mono hsources)

/-- Nothing is missing on the way to a file that is found in a workspace without links. -/
theorem avoids_of_leaf (hd : d.WellFormed) (hfree : d.LinkFreeBelow workspace)
    (hleaf : .leaf source ∈ d.leavesBelow workspace) :
    d.Avoids source fun loc => d.node? loc = none := by
  obtain ⟨outer, n, listed, names, houter, rfl, hlisted, hn, -⟩ := exists_listed_of_leaf hd hleaf
  have hc := Path.components_child (p := outer) (isEntryName_of_names hd hlisted hn)
  have horigin : d.origin (outer.child n) = d.origin outer := by
    rw [origin_eq, origin_eq, hc, originOf_concat]
  obtain ⟨loc, hfind, hfolder, rfl⟩ := names_ok_iff.1 hlisted
  have hreaches : d.Reaches outer loc := reaches_of_find (Or.inl (by simp)) hfind
  obtain ⟨_, henters⟩ := enters_of_isFolder (isFolder_iff.2 (node_ok_iff.2 ⟨loc, hfind, hfolder⟩))
  intro met hmet hnone
  rw [horigin, hc] at hmet
  rcases hmet.of_append with hmet | ⟨mid, hmid, hmet⟩
  · rw [henters.meets hd hmet] at hnone
    cases hnone
  · obtain rfl : mid = loc := (leads_origin_iff.1 hmid).unique hreaches
    have hlink : d.link? (mid ++ [n]) = none := by
      obtain ⟨base, hbase, rfl⟩ := (reaches_below hfree houter).1 hreaches
      rw [List.append_assoc]
      exact hfree base hbase _
    cases hmet with
    | stop =>
      rw [hfolder] at hnone
      cases hnone
    | name _ hmet =>
      cases hmet
      exact mem_namesBelow.1 hn hnone
    | link hsome _ =>
      rw [hlink] at hsome
      cases hsome

/-- A file of the workspace can be read later if it could be at first, and is not for the same
reason. -/
theorem Progress.readFile (h : Progress workspace destination d d') (hd : d.WellFormed)
    (hfree : d.LinkFreeBelow workspace) (hleaf : .leaf source ∈ d.leavesBelow workspace) :
    (d'.readFile source).map (fun _ => ()) = (d.readFile source).map fun _ => () :=
  h.grows.alikeBut.readFile (avoids_of_leaf hd hfree hleaf)

/-- No file is installed where a script lies, since nothing is installed under the name of a
script. -/
theorem not_installedAt_script (hd : d.WellFormed) (hfree : d.LinkFreeBelow workspace)
    (hfree' : d.LinkFreeBelow destination) (hleaf : .leaf source ∈ d.leavesBelow workspace)
    (hscript : isScript source = true) (hother : .leaf other ∈ d.leavesBelow workspace)
    (hreaches : d.Reaches source loc) : ¬ InstalledAt d workspace destination other loc := by
  have hws := components_ne_nil_of_leaf hleaf
  obtain ⟨front, n, hnames, rfl⟩ := exists_names_of_leaf hd hleaf
  have hc := Path.components_descend (p := workspace) hnames
  obtain ⟨r, hr, -⟩ := Path.exists_relativeTo? hws hc
  have hbears := (components_targetOf destination hws hnames hc hr).1.1 hscript
  obtain ⟨base, -, rfl⟩ := (reaches_below hfree hc).1 hreaches
  rintro ⟨target, htarget, ⟨others, hne, -, hothers⟩, hat⟩
  obtain ⟨base', -, hloc⟩ := (reaches_below hfree' hothers).1 hat
  -- the last name of the place is that of the script, and what a name has become
  obtain ⟨front', m, hnames', rfl⟩ := exists_names_of_leaf hd hother
  obtain ⟨r', hr', rfl⟩ := target?_eq_some.1 htarget
  obtain ⟨-, hc'⟩ :=
    components_targetOf destination hws hnames' (Path.components_descend hnames') hr'
  rcases List.eq_nil_or_concat others with rfl | ⟨outer, l, rfl⟩
  · exact hne rfl
  · rw [List.concat_eq_append] at hothers hloc
    rw [hothers, List.map_append, ← List.append_assoc] at hc'
    have hlast : lastComponent m = .name l := by
      simpa using (List.append_inj' hc' rfl).2.symm
    rw [← List.append_assoc, ← List.append_assoc] at hloc
    obtain rfl : n = l := by simpa using (List.append_inj' hloc rfl).2
    by_cases hm : Path.Bears m Sync.scriptExtension
    · obtain ⟨stem, -, -, -, rfl⟩ := pairNames_of_bears hm hlast
      exact not_bears_bytecode stem hbears
    · rw [lastComponent_other hm] at hlast
      exact hm (Component.name.inj hlast ▸ hbears)

/-- A script of the workspace reads the same all along. -/
theorem Progress.readFile_script (h : Progress workspace destination d d') (hd : d.WellFormed)
    (hfree : d.LinkFreeBelow workspace) (hfree' : d.LinkFreeBelow destination)
    (hleaf : .leaf source ∈ d.leavesBelow workspace) (hscript : isScript source = true) :
    d'.readFile source = d.readFile source := by
  have hsame := h.readFile hd hfree hleaf
  cases hread : d.readFile source with
  | error fault =>
    rw [hread] at hsame
    cases hread' : d'.readFile source with
    | error fault' =>
      rw [hread'] at hsame
      exact congrArg Except.error (Except.error.inj hsame)
    | ok bytes =>
      rw [hread'] at hsame
      cases hsame
  | ok bytes =>
    obtain ⟨deeds, hdeeds, hall⟩ := h
    refine readFile_of_installs (components_ne_nil_of_leaf hleaf) hd
      (fun s hs => lies_of_leaf hd (mem_found.1 hs)) hdeeds hall
      (fun s hs loc hat hreaches => ?_) hread
    exact not_installedAt_script hd hfree hfree' hleaf hscript (mem_found.1 hs) hreaches hat

end GemCourier.Bytecode
