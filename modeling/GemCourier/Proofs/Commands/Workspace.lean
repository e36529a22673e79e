/-
GemCourier/Proofs/Commands/Workspace.lean

What an installation by way of a workspace leaves on the disk.

The workspace of a gem is a hidden entry of the output directory, or of some
directory behind it when the name of the gem has slashes.  Where nothing stood
there before, nothing stands there afterwards, and the failed listing of a gem
leaves no trace at all.  What differs otherwise lies at or below the destination
or is a missing part of the way to it or, for a name with slashes, to the
workspace: those parts are made for the workspace and nobody clears them away.

Main result: `installCompiled_leaves`.
-/
import GemCourier.Proofs.Bytecode.Installing
import GemCourier.Proofs.Commands.Printing
import GemCourier.Proofs.Host.Clearing
import GemCourier.Proofs.Remote.Accounts
import GemCourier.Proofs.Remote.Confinement

namespace GemCourier

namespace Disk

variable {d d' : Disk} {p root : Path} {loc : Location} {names : List String} {cs : List Component}
  {n : String}

/-! ### Places where nothing stands -/

theorem not_holds_of_clear {p : Path} (hclear : ∀ loc, d.Reaches p loc → d.node? loc = none) :
    d.holds p = false := by
  rw [holds]
  cases hnode : d.node p with
  | error fault => rfl
  | ok node =>
    obtain ⟨loc, hfind, hsome⟩ := node_ok_iff.1 hnode
    rw [hclear loc (reaches_of_find (Or.inl (by simp)) hfind)] at hsome
    cases hsome

/-- Where nothing stands, no files are found. -/
theorem leaves_of_clear {p : Path} (hclear : ∀ loc, d.Reaches p loc → d.node? loc = none) :
    (d.leavesBelow p).filterMap Finding.leaf? = [] := by
  have hnames : ∃ fault, d.names p = .error fault := by
    cases hnames : d.names p with
    | error fault => exact ⟨fault, rfl⟩
    | ok names =>
      obtain ⟨loc, hfind, hfolder, -⟩ := names_ok_iff.1 hnames
      rw [hclear loc (reaches_of_find (Or.inl (by simp)) hfind)] at hfolder
      cases hfolder
  obtain ⟨fault, hnames⟩ := hnames
  rw [leavesBelow]
  cases d.walkBound with
  | zero => rfl
  | succ steps => simp [walkWithin, childrenOf, hnames, Except.map, Finding.leaf?]

/-- No part of the way to the path comes by the place that the path leads to. -/
def Direct (d : Disk) (p : Path) : Prop :=
  ∀ q : Path, q.components <+: p.components.dropLast → ∀ loc, d.Reaches q loc → ¬ d.Reaches p loc

/-- A relative path of names alone comes by nothing twice. -/
theorem direct_of_names (hfree : ∀ loc, d.link? loc = none) (hne : names ≠ [])
    (hp : p.components = names.map .name) : d.Direct p := by
  intro q hq loc hloc hboth
  rw [hp, ← List.map_dropLast, List.prefix_iff_eq_take, ← List.map_take] at hq
  rw [Reaches, hq, leads_names _ fun _ => hfree _] at hloc
  rw [Reaches, hp, leads_names _ fun _ => hfree _, hloc] at hboth
  have hlength := congrArg List.length hboth
  have hpos := List.length_pos_iff.2 hne
  simp only [List.length_append, List.length_take, List.length_dropLast] at hlength
  omega

/-- A directory that deeds within it have made is an entry that can be looked up. -/
theorem entered_of_within {deeds : List Deed}
    (hdeeds : d.Does deeds d') (hwithin : ∀ deed ∈ deeds, deed.Within root)
    (hfree : ∀ loc, d.link? loc = none) (hc : root.components = cs ++ [.name n])
    (hshort : root.text.utf8ByteSize ≤ longestPath) (hdirect : d.Direct root)
    (hloc : d.Reaches root loc) (hnone : d.node? loc = none) :
    d'.node? loc = none ∨ d'.node? loc = some .folder ∧ ∃ outer, d'.Enters cs outer ∧
      loc = outer ++ [n] ∧ root.refusal? n = none := by
  have hbelow : ∀ {p : Path} {names : List String}, p.components = root.components ++ names.map .name →
      d.Reaches p loc → names = [] := by
    intro p names hnames hreaches
    obtain ⟨base, hbase, heq⟩ := (reaches_below (fun _ _ _ => hfree _) hnames).1 hreaches
    rw [hbase.unique hloc] at heq
    simpa using heq
  rcases hdeeds.node?_eq_or loc with
    hsame | ⟨p, hp, hreaches, -, hfolder⟩ | ⟨p, bytes, _, _, hp, hreaches, -⟩
  · exact Or.inl (hsame.trans hnone)
  · refine Or.inr ⟨hfolder, ?_⟩
    have hpc : p.components = cs ++ [.name n] := by
      rcases hwithin _ hp with hpart | ⟨names, hnames⟩
      · rw [hc] at hpart
        refine (List.prefix_concat_iff.1 hpart).resolve_right fun hpart => ?_
        exact hdirect p (by rwa [hc, List.dropLast_concat]) loc hreaches hloc
      · rw [← hc, hnames, hbelow hnames hreaches, List.map_nil, List.append_nil]
    have hmade := hdeeds.isFolder_made hp
    obtain ⟨dest, henters⟩ := enters_of_isFolder hmade
    obtain rfl : dest = loc := henters.reaches.unique (hdeeds.grows.reaches.2 hreaches)
    rw [hpc] at henters
    obtain ⟨outer, houter, hdest, hname⟩ :=
      henters.exists_entry fun other => (hdeeds.grows.links other).trans (hfree other)
    refine ⟨outer, houter, hdest, ?_⟩
    -- the directory was looked up by a path with the same components
    have hnul : root.text.toList.contains '\x00' = false := by
      obtain ⟨_, hfind, -⟩ := node_ok_iff.1 (isFolder_iff.1 hmade)
      rw [Path.contains_nul_congr (hc.trans hpc.symm)]
      exact (find_ok_iff.1 hfind).1.no_nul
    rw [Path.refusal?, hnul]
    simp [Nat.not_lt.2 hshort, hname]
  · obtain ⟨names, hne, hnames⟩ := hwithin _ hp
    exact absurd (hbelow hnames hreaches) hne

end Disk

namespace Commands

open Disk Remote

variable {compiler : Bytecode.Compiler} {tree : RemoteTree} {source package : String}
  {outputDir : Path} {h : Host}

/-! ### The way to the workspace -/

theorem isEntryName_workspace (hslash : '/' ∉ package.toList) :
    IsEntryName ("." ++ package ++ ".download") := by
  refine Path.isEntryName_of_long (by simp [hslash]) ?_
  simp only [String.length_append]
  exact Nat.lt_of_lt_of_le (show 2 < ".download".length by decide) (Nat.le_add_left _ _)

/-- The workspace is a named entry, and one of the output directory if the gem has a name without
slashes. -/
theorem workspace_spec (outputDir : Path) (package : String) :
    ∃ cs n, (workspace outputDir package).Neat n ∧
      (workspace outputDir package).components = cs ++ [.name n] ∧
      ('/' ∉ package.toList → cs = outputDir.components) := by
  have hsuffix : '/' ∉ ".download".toList := by decide
  obtain ⟨_, last, hneat, -⟩ := Path.exists_suffixed ⟨"." ++ package⟩ hsuffix (by decide)
  have hrelative : (Path.mk ("." ++ package ++ ".download")).isAbsolute = false := by
    simp [Path.isAbsolute]
  have hws : (workspace outputDir package).Neat (last ++ ".download") :=
    Path.neat_join hneat hrelative
  obtain ⟨cs, hcs⟩ := hws.components
  refine ⟨cs, _, hws, hcs, fun hslash => ?_⟩
  have hchild : (workspace outputDir package).components = _ :=
    Path.components_child (isEntryName_workspace hslash)
  exact (List.append_inj' (hcs.symm.trans hchild) rfl).1

/-- The output directory lies on the way to the destination of a gem that has a name without
slashes. -/
theorem components_prefix_child (outputDir : Path) (hslash : '/' ∉ package.toList) :
    outputDir.components <+: (outputDir.child package).components := by
  by_cases hempty : outputDir.text = ""
  · obtain ⟨text⟩ := outputDir
    obtain rfl : text = "" := hempty
    exact List.nil_prefix
  · have hrelative : (Path.mk package).isAbsolute = false := by
      refine Bool.eq_false_iff.2 fun habsolute => hslash ?_
      exact List.mem_of_mem_head? (by simpa [Path.isAbsolute] using habsolute)
    rw [Path.child, Path.components_join_pieces hempty hrelative]
    exact List.prefix_append _ _

/-! ### The stages -/

/-- A download that fails as a whole leaves the disk as it was. -/
theorem disk_of_download_error {e : FetchError} {place : Path}
    (herror : (tree.download source place).answer h = .error e) :
    ((tree.download source place).after h).disk = h.disk := by
  cases hlisted : (tree.list source).outcome with
  | error cause =>
    have hstep := Source.download_unlisted hlisted (tree.ends source) place h
    show (tree.toSource.download source (tree.ends source) place h).2.disk = _
    rw [hstep]
    exact Source.disk_after_askListing _ source h
  | ok entries =>
    obtain ⟨_, -, hstep⟩ := Source.download_listed hlisted (tree.ends source) place h
    have hok : (tree.download source place).answer h = _ := congrArg Prod.fst hstep
    rw [hok] at herror
    cases herror

/-- Compiling a gem is installing it: what is shown of it comes before and behind. -/
theorem compileGem_eq (compiler : Bytecode.Compiler) (ws destination : Path) (h : Host) :
    ∃ shown : Host, shown.disk = h.disk ∧ ((compileGem compiler ws destination).after h).disk =
      ((Bytecode.install compiler ws destination).after shown).disk := by
  refine ⟨(Act.print (.plain "Compiling...")).after ((Act.print .blank).after h), rfl, ?_⟩
  simp only [compileGem, Act.after_bind, Act.after_disk, Act.answer_disk]
  exact Act.keeps_printAll Act.print_disk _ _

/-- An installation by way of a workspace is a download, an installation from the workspace unless
the download failed, and a clearing. -/
theorem installCompiled_stages (compiler : Bytecode.Compiler) (tree : RemoteTree) (source : String)
    (outputDir : Path) (package : String) (h : Host) :
    let scratch := workspace outputDir package
    let step := installCompiled compiler tree source outputDir package
    let loaded := (tree.download source scratch).after h
    ∃ mid, (step.after h).disk = ((Directory.clearAway scratch).after mid).disk ∧
      match (tree.download source scratch).answer h with
      | .error e => step.answer h = .error (.download source e) ∧ mid.disk = h.disk
      | .ok _ => step.answer h = .ok () ∧ ∃ shown : Host, shown.disk = loaded.disk ∧ mid.disk =
          ((Bytecode.install compiler scratch (outputDir.child package)).after shown).disk := by
  intro scratch step loaded
  obtain ⟨hdisk, -, hanswer⟩ := installGem_eq tree source scratch h
  let given := (installGem tree source scratch).after h
  cases hdownload : (tree.download source scratch).answer h with
  | error e =>
    rw [hdownload] at hanswer
    refine ⟨given, ?_, ?_, hdisk.trans (disk_of_download_error hdownload)⟩
    · simp [step, installCompiled, hanswer, Except.mapError, Except.isOk, Except.toBool, given,
        scratch]
    · simp [step, installCompiled, hanswer, Except.mapError, Except.map, Except.isOk,
        Except.toBool, scratch]
  | ok report =>
    rw [hdownload] at hanswer
    let mid := (compileGem compiler scratch (outputDir.child package)).after given
    obtain ⟨shown, hshown, hmid⟩ := compileGem_eq compiler scratch (outputDir.child package) given
    refine ⟨mid, ?_, ?_, shown, hshown.trans hdisk, hmid⟩
    · simp [step, installCompiled, hanswer, Except.mapError, Except.isOk, Except.toBool, given,
        scratch, mid]
    · simp [step, installCompiled, hanswer, Except.mapError, Except.map, Except.isOk,
        Except.toBool, scratch]

/-! ### What an installation leaves -/

/-- Where nothing stood before a directory was made and filled, clearing it away leaves nothing, and
elsewhere what was there. -/
theorem node?_of_clearAway {d made : Disk} {deeds more : List Deed} {root : Path} {mid : Host}
    {cs : List Component} {n : String} {loc : Location} (hd : d.WellFormed)
    (hfree : ∀ loc, d.link? loc = none) (hdeeds : d.Does deeds made)
    (hwithin : ∀ deed ∈ deeds, deed.Within root) (hneat : root.Neat n)
    (hc : root.components = cs ++ [.name n]) (hshort : root.text.utf8ByteSize ≤ longestPath)
    (hdirect : d.Direct root) (hloc : d.Reaches root loc) (hnone : d.node? loc = none)
    (hmore : made.Does more mid.disk) (hidle : made.node? loc = none → mid.disk = made)
    (other : Location) :
    ((Directory.clearAway root).after mid).disk.node? other =
      if loc <+: other then none else mid.disk.node? other := by
  rcases entered_of_within hdeeds hwithin hfree hc hshort hdirect hloc hnone with
    hgone | ⟨hfolder, outer, henters, rfl, hopen⟩
  · -- nothing was made, and nothing is found
    have hmid := hidle hgone
    have habsent : mid.disk.holds root = false := by
      rw [hmid]
      refine not_holds_of_clear fun dest hdest => ?_
      rw [(hdeeds.grows.reaches.1 hdest).unique hloc, hgone]
    rw [Directory.clearAway_absent habsent, hmid]
    split
    · next hbelow =>
      obtain ⟨names, rfl⟩ := hbelow
      by_cases hnil : names = []
      · rw [hnil, List.append_nil, hgone]
      · exact (hdeeds.wellFormed hd).node?_deep (by simp [hgone]) hnil
    · rfl
  · rw [Directory.clearAway_entry (henters.grows hmore.grows) hneat hc hopen
      (hmore.grows.folder hfolder), node?_cut _ (by simp)]
    simp only [List.isPrefixOf_iff_prefix]

/-- What an installation by way of a workspace leaves on a disk without links, if nothing stands
where the workspace leads and the compiler writes nothing but its targets.  If it fails, the disk
is as it was.  Otherwise, for a workspace with a path that is not too long and does not come by its
own end, nothing stands at or below it, and what has changed lies at or below the destination or is
a directory that was missing on the way there or, for a name with slashes, to the workspace. -/
theorem installCompiled_leaves (compiler : Bytecode.Compiler) (tree : RemoteTree)
    (source : String) (outputDir : Path) (package : String) (h : Host)
    (hcompiler : compiler.WritesTarget) (hd : h.disk.WellFormed)
    (hfree : ∀ loc, h.disk.link? loc = none)
    (hclear : ∀ loc, h.disk.Reaches (workspace outputDir package) loc → h.disk.node? loc = none) :
    let scratch := workspace outputDir package
    let destination := outputDir.child package
    let step := installCompiled compiler tree source outputDir package
    let after := (step.after h).disk
    (∀ e, step.answer h = .error e → after = h.disk) ∧
      (scratch.text.utf8ByteSize ≤ longestPath → h.disk.Direct scratch →
        (∀ loc names, h.disk.Reaches scratch loc → after.node? (loc ++ names) = none) ∧
        ∀ loc, after.node? loc = h.disk.node? loc ∨
          (∃ base names, h.disk.Reaches destination base ∧ loc = base ++ names) ∨
          h.disk.node? loc = none ∧ after.node? loc = some .folder ∧
            ∃ p : Path, h.disk.Reaches p loc ∧ (p.components <+: destination.components ∨
              '/' ∈ package.toList ∧ p.components <+: scratch.components.dropLast)) := by
  intro scratch destination step after
  obtain ⟨cs, n, hneat, hc, hplain⟩ := workspace_spec outputDir package
  obtain ⟨place, hplace⟩ : ∃ place, h.disk.Reaches scratch place := ⟨_, leads_landing hfree _ _⟩
  have hempty : ∀ names, h.disk.node? (place ++ names) = none := by
    intro names
    by_cases hnil : names = []
    · rw [hnil, List.append_nil, hclear place hplace]
    · exact hd.node?_deep (by simp [hclear place hplace]) hnil
  obtain ⟨mid, hafter, hstages⟩ := installCompiled_stages compiler tree source outputDir package h
  change after = _ at hafter
  cases hdownload : (tree.download source scratch).answer h with
  | error e =>
    rw [hdownload] at hstages
    obtain ⟨-, hmid⟩ := hstages
    have hsame : after = h.disk := by
      rw [hafter, Directory.clearAway_absent (by rw [hmid]; exact not_holds_of_clear hclear), hmid]
    refine ⟨fun _ _ => hsame, fun _ _ => ⟨?_, fun loc => Or.inl (by rw [hsame])⟩⟩
    intro loc names hloc
    rw [hsame, hloc.unique hplace]
    exact hempty names
  | ok report =>
    rw [hdownload] at hstages
    obtain ⟨hanswer, shown, hshown, hmid⟩ := hstages
    have hok : ∀ e, step.answer h ≠ .error e := by
      intro e he
      rw [show step.answer h = .ok () from hanswer] at he
      cases he
    refine ⟨fun e he => absurd he (hok e), fun hshort hdirect => ?_⟩
    -- what is downloaded stays within the workspace, what is installed within the destination
    obtain ⟨deeds, hdeeds, hwithin⟩ :=
      Source.does_download source (tree.ends source) scratch h
    obtain ⟨more, hmore, hinstalled⟩ : ∃ more, shown.disk.Does more mid.disk ∧
        ∀ deed ∈ more, deed.Within destination := by
      rw [hmid]
      refine Bytecode.install_within hcompiler ?_ ?_
      · rw [hc]
        simp
      · rw [hshown]
        exact hdeeds.wellFormed hd
    rw [hshown] at hmore
    have hidle : ((tree.download source scratch).after h).disk.node? place = none →
        mid.disk = ((tree.download source scratch).after h).disk := by
      intro hgone
      rw [hmid, ← hshown]
      refine Bytecode.install_of_no_leaves (leaves_of_clear fun dest hdest => ?_)
      rw [hshown] at hdest ⊢
      rw [(hdeeds.grows.reaches.1 hdest).unique hplace]
      exact hgone
    have hnodes := node?_of_clearAway hd hfree hdeeds hwithin hneat hc hshort hdirect hplace
      (hclear place hplace) hmore hidle
    rw [← hafter] at hnodes
    refine ⟨?_, fun loc => ?_⟩
    · intro loc names hloc
      rw [hnodes, hloc.unique hplace, if_pos (List.prefix_append _ _)]
    by_cases hbelow : place <+: loc
    · obtain ⟨names, rfl⟩ := hbelow
      rw [hnodes, if_pos (List.prefix_append _ _), hempty]
      exact Or.inl rfl
    rw [hnodes, if_neg hbelow]
    by_cases hdest : ∃ base names, h.disk.Reaches destination base ∧ loc = base ++ names
    · exact Or.inr (Or.inl hdest)
    have hbeside : ∀ base names, h.disk.Reaches scratch base → names ≠ [] → loc ≠ base ++ names := by
      rintro base names hbase - rfl
      exact hbelow (hbase.unique hplace ▸ List.prefix_append _ _)
    have hloaded := Source.node?_of_within hdeeds hwithin (fun _ _ _ => hfree _) hbeside
    have hbuilt := Source.node?_of_within hmore hinstalled
      (fun _ _ _ => (hdeeds.grows.links _).trans (hfree _))
      fun base names hbase _ heq => hdest ⟨base, names, hdeeds.grows.reaches.1 hbase, heq⟩
    rcases hloaded with hsame | ⟨hnone, hfolder, p, hp, hreaches⟩
    · rcases hbuilt with hsame' | ⟨hnone', hfolder', p, hp, hreaches⟩
      · exact Or.inl (hsame'.trans hsame)
      · exact Or.inr (Or.inr ⟨hsame.symm.trans hnone', hfolder', p,
          hdeeds.grows.reaches.1 hreaches, Or.inl hp⟩)
    · refine Or.inr (Or.inr ⟨hnone, hmore.grows.folder hfolder, p, hreaches, ?_⟩)
      -- a part of the way to the workspace, but not the workspace itself
      rw [hc] at hp
      have hpart : p.components <+: cs := by
        refine (List.prefix_concat_iff.1 hp).resolve_left fun heq => hbelow ?_
        rw [Reaches, heq, ← hc] at hreaches
        rw [hreaches.unique hplace]
      by_cases hslash : '/' ∈ package.toList
      · exact Or.inr ⟨hslash, by rwa [hc, List.dropLast_concat]⟩
      · exact Or.inl ((hplain hslash ▸ hpart).trans (components_prefix_child outputDir hslash))

/-- A gem with one file that is no script. -/
def ledTree : StoredTree where
  listings := [("g/led", .held [(.file, "m.rake")])]
  files := [("g/led/m.rake", .held "M".toUTF8)]

/-- A project without an output directory. -/
def bareDisk : Disk := ⟨[(["p"], .folder)], ["p"], 0⟩

/-- Nothing is left of the workspace of a small gem. -/
theorem installCompiled_leaves_led :
    let step := installCompiled (.trial []) ledTree.toTree "g/led" ⟨"lib"⟩ "led"
    ∀ names, (step.after ⟨bareDisk, []⟩).disk.node?
      (["p", "lib", ".led.download"] ++ names) = none := by
  intro step names
  have hws : (workspace ⟨"lib"⟩ "led").components = ["lib", ".led.download"].map .name := by decide
  have hfree : ∀ loc, bareDisk.link? loc = none := link?_eq_none (by simp [bareDisk])
  have hplace : bareDisk.Reaches (workspace ⟨"lib"⟩ "led") ["p", "lib", ".led.download"] := by
    rw [Reaches, hws]
    exact (leads_names _ fun _ => hfree _).2 rfl
  have hclear : ∀ loc, bareDisk.Reaches (workspace ⟨"lib"⟩ "led") loc →
      bareDisk.node? loc = none := by
    intro loc hloc
    rw [hloc.unique hplace]
    decide
  have hleft := (installCompiled_leaves (.trial []) ledTree.toTree "g/led" ⟨"lib"⟩ "led"
    ⟨bareDisk, []⟩ (Bytecode.Compiler.trial_writesTarget []) (by decide) hfree hclear).2
    (by decide) (direct_of_names hfree (by simp) hws)
  exact hleft.1 _ names hplace
end Commands

end GemCourier
