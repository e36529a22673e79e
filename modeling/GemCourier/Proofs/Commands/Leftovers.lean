/-
GemCourier/Proofs/Commands/Leftovers.lean

What the leftovers of a workspace do to an installation.

A workspace is not cleared before a gem is downloaded into it, and it is
installed by a walk of its own.  So what an earlier run left there is installed
along with the gem, unless the download writes over it.  As long as the walk
finds nothing but what the download saved, leftovers are of no consequence: two
disks that differ in the workspace alone hold the same at the destination
afterwards.

What a download saves is fetched, so it reads the same on both disks.  Off the
workspace both are alike, the directories on the way to it included, once
anything is saved.  The rest is up to the twin runs of an installation.

Main result: `installCompiled_alike`.
-/
import GemCourier.Proofs.Bytecode.Twins
import GemCourier.Proofs.Commands.Workspace
import GemCourier.Proofs.Remote.Isolation

namespace GemCourier

namespace Remote.Source

variable {source : Source} {folder : String} {root p : Path} {report : FetchReport}
  {ends : source.Ends folder} {h : Host} {bytes : ByteArray}

/-! ### What is saved -/

/-- What a download saves has the names behind the root that it was fetched by, and reads as it was
fetched. -/
theorem exists_names_of_saved (htidy : source.Tidy) (hfree : h.disk.LinkFreeBelow root)
    (hok : (source.download folder ends root).answer h = .ok report) (hp : p ∈ report.saved) :
    ∃ names bytes, names ≠ [] ∧ (∀ n ∈ names, IsEntryName n) ∧ p = root.descend names ∧
      (source.fetch (descend folder names)).outcome = .ok bytes ∧
      ((source.download folder ends root).after h).disk.readFile p = .ok bytes := by
  obtain ⟨entries, visits, hlisted, htour, hcarries, rfl, -⟩ := download_carried hok
  obtain ⟨v, hv, hsaved⟩ := List.mem_filterMap.1 hp
  obtain ⟨hfate, hfile, rfl⟩ := hcarries.saved hv hsaved
  have horder := htidy _ _ hlisted
  obtain ⟨hslash, front, hlies, -⟩ := htour.round.behind htidy horder v hv
  obtain ⟨bytes, hfetch, hread⟩ := htour.round.readFile htidy horder hcarries hfree v hv hfate
  exact ⟨front ++ [v.entry.name], bytes, by simp,
    hlies.isEntryName (isEntryName_of_isPlainName hfile.1 hslash), hlies.localPath,
    hlies.remotePath ▸ hfetch, hread⟩

/-- What reads as a file after a download and was not saved by it stood there before. -/
theorem saved_or_stood (htidy : source.Tidy) (hfree : h.disk.LinkFreeBelow root)
    (hok : (source.download folder ends root).answer h = .ok report) {names : List String}
    (hnames : ∀ n ∈ names, IsEntryName n)
    (hread : ((source.download folder ends root).after h).disk.readFile (root.descend names) =
      .ok bytes) :
    root.descend names ∈ report.saved ∨ ∃ loc t m, h.disk.Reaches (root.descend names) loc ∧
      h.disk.node? loc = some (.file bytes t m) := by
  obtain ⟨entries, visits, hlisted, htour, hcarries, hreport, -⟩ := download_carried hok
  obtain ⟨deeds, hdeeds, hserve⟩ := hcarries.exists_deeds
  obtain ⟨loc, t, m, hreaches, hnode⟩ := Disk.exists_reaches_of_readFile hread
  rw [hdeeds.grows.reaches] at hreaches
  by_cases hwritten : ∃ q b, .wrote q b ∈ deeds ∧ h.disk.Reaches q loc
  · obtain ⟨q, b, hq, hqreaches⟩ := hwritten
    obtain ⟨v, hv, hfile, -, rfl, hfate⟩ := hserve _ hq
    have hmem : v.localPath ∈ report.saved := by
      rw [hreport]
      exact List.mem_filterMap.2 ⟨v, hv, by rw [Visit.saved?, hfate]⟩
    -- both paths go down the same names
    obtain ⟨others, -, -, hothers, hpath, -, -⟩ := exists_names_of_saved htidy hfree hok hmem
    rw [hpath] at hqreaches hmem
    have hsame : names = others := Disk.names_unique hfree (Path.components_descend hnames)
      (Path.components_descend hothers) hreaches hqreaches
    exact Or.inl (hsame ▸ hmem)
  · exact Or.inr ⟨loc, t, m, hreaches, (hdeeds.file_iff fun q b hq hqreaches =>
      hwritten ⟨q, b, hq, hqreaches⟩).1 hnode⟩

end Remote.Source

namespace Commands

open Disk Remote

variable {tree : RemoteTree} {source : String} {scratch : Path} {h k : Host} {place : Location}
  {saved : List Path} {report report' : FetchReport}

/-! ### What is found in the workspace -/

/-- All files that are found in the workspace after a download are those that it saved. -/
def LoadsOnly (tree : RemoteTree) (source : String) (scratch : Path) (h : Host)
    (saved : List Path) : Prop :=
  ∀ report, (tree.download source scratch).answer h = .ok report → report.saved = saved ∧
    ∀ p, .leaf p ∈ ((tree.download source scratch).after h).disk.leavesBelow scratch → p ∈ saved

theorem wellFormed_download (tree : RemoteTree) (source : String) (scratch : Path)
    (hd : h.disk.WellFormed) :
    ((tree.download source scratch).after h).disk.WellFormed := by
  obtain ⟨deeds, hdeeds, -⟩ := Source.does_download source (tree.ends source) scratch h
  exact hdeeds.wellFormed hd

section Saved

variable (htidy : tree.toSource.Tidy) (hd : h.disk.WellFormed)
  (hfree : ∀ loc, h.disk.link? loc = none) (htext : scratch.text ≠ "")
  (hok : (tree.download source scratch).answer h = .ok report)
include htidy hd hfree htext hok

theorem leaf_of_saved {p : Path} (hp : p ∈ report.saved) :
    .leaf p ∈ ((tree.download source scratch).after h).disk.leavesBelow scratch := by
  obtain ⟨names, bytes, hne, hnames, rfl, -, hread⟩ :=
    Source.exists_names_of_saved htidy (fun _ _ _ => hfree _) hok hp
  obtain ⟨t, m, hnode⟩ := readFile_ok_iff.1 hread
  exact leaf_mem_leavesBelow (wellFormed_download tree source scratch hd) htext hne hnames
    (isFile_iff.2 ⟨bytes, t, m, hnode⟩)

/-- Where something was saved, the workspace is a directory. -/
theorem isFolder_of_saved (hsaved : report.saved ≠ []) :
    ((tree.download source scratch).after h).disk.isFolder scratch = true := by
  obtain ⟨p, hp⟩ := List.exists_mem_of_ne_nil _ hsaved
  obtain ⟨names, bytes, hne, hnames, rfl, -, hread⟩ :=
    Source.exists_names_of_saved htidy (fun _ _ _ => hfree _) hok hp
  obtain ⟨t, m, hnode⟩ := readFile_ok_iff.1 hread
  obtain ⟨dest, hfind⟩ := exists_find_of_isFile (isFile_iff.2 ⟨bytes, t, m, hnode⟩)
  obtain ⟨_, _, hopens⟩ := exists_opens_of_find_descend htext hne hnames hfind
  exact isFolder_of_opens (wellFormed_download tree source scratch hd) hopens

end Saved

/-- What both downloads saved reads the same on both disks. -/
theorem read_alike (htidy : tree.toSource.Tidy) (htwins : Twins place h.disk k.disk)
    (hok : (tree.download source scratch).answer h = .ok report)
    (hok' : (tree.download source scratch).answer k = .ok report') {p : Path}
    (hp : p ∈ report.saved) (hp' : p ∈ report'.saved) :
    ∃ bytes, ((tree.download source scratch).after h).disk.readFile p = .ok bytes ∧
      ((tree.download source scratch).after k).disk.readFile p = .ok bytes := by
  obtain ⟨names, bytes, -, hnames, rfl, hfetch, hread⟩ :=
    Source.exists_names_of_saved htidy (fun _ _ _ => htwins.free _) hok hp
  obtain ⟨others, bytes', -, hothers, hpath, hfetch', hread'⟩ :=
    Source.exists_names_of_saved htidy (fun _ _ _ => htwins.free' _) hok' hp'
  obtain rfl := Path.descend_injective hnames hothers hpath
  obtain rfl : bytes = bytes' := Except.ok.inj (hfetch.symm.trans hfetch')
  exact ⟨bytes, hread, hread'⟩

/-! ### Two installations -/

section Alike

variable {compiler : Bytecode.Compiler}
  {f : Path → Path → Except Fault ByteArray → Option ByteArray} {destination : Path}
  {base : Location}

/-- What lies at or below a place keeps off another one that keeps off it. -/
theorem not_prefix_of_off (hnot : ¬ place <+: base) (hnot' : ¬ base <+: place)
    (names : List String) : ¬ place <+: base ++ names := by
  intro hbelow
  rcases List.prefix_or_prefix_of_prefix hbelow (List.prefix_append _ _) with hfirst | hlast
  · exact hnot hfirst
  · exact hnot' hlast

/-- Where nothing is saved and nothing else is found, a gem is installed by doing nothing at the
destination. -/
theorem node?_of_unsaved {shown : Host} (hfree : ∀ loc, h.disk.link? loc = none)
    (hplace : h.disk.Reaches scratch place) (hnot : ¬ place <+: base)
    (hoff : Off base h.disk.start scratch.components)
    (hok : (tree.download source scratch).answer h = .ok report)
    (honly : LoadsOnly tree source scratch h [])
    (hshown : shown.disk = ((tree.download source scratch).after h).disk) (names : List String) :
    ((Bytecode.install compiler scratch destination).after shown).disk.node? (base ++ names) =
      h.disk.node? (base ++ names) := by
  have hnone : (shown.disk.leavesBelow scratch).filterMap Finding.leaf? = [] := by
    refine List.eq_nil_iff_forall_not_mem.2 fun p hp => ?_
    rw [Finding.mem_filterMap_leaf?, hshown] at hp
    cases (honly report hok).2 p hp
  rw [Bytecode.install_of_no_leaves hnone, hshown]
  obtain ⟨deeds, hdeeds, hwithin⟩ := Source.does_download source (tree.ends source) scratch h
  have hscratch := hoff _ (List.prefix_refl _)
  rw [← (reaches_iff_landing hfree).1 hplace] at hscratch
  rcases hdeeds.off_within hwithin hfree hplace (not_prefix_of_off hnot hscratch names) with
    hsame | ⟨p, hpart, -, hreaches⟩
  · exact hsame
  · -- the way to the workspace does not come by the destination
    rw [reaches_iff_landing hfree] at hreaches
    exact absurd (hreaches ▸ List.prefix_append _ _) (hoff _ hpart)

/-- Where both downloads saved the same and nothing else is found, a gem is installed on both disks
alike. -/
theorem install_alike {shown shown' : Host} (hcomputes : compiler.Computes f)
    (htidy : tree.toSource.Tidy) (hd : h.disk.WellFormed) (hd' : k.disk.WellFormed)
    (htwins : Twins place h.disk k.disk) (htext : scratch.text ≠ "")
    (hplace : h.disk.Reaches scratch place) (hbase : h.disk.Reaches destination base)
    (hoff : Off place h.disk.start destination.components)
    (hoff' : Off base h.disk.start scratch.components)
    (hok : (tree.download source scratch).answer h = .ok report)
    (hok' : (tree.download source scratch).answer k = .ok report')
    (honly : LoadsOnly tree source scratch h saved) (honly' : LoadsOnly tree source scratch k saved)
    (hsaved : saved ≠ [])
    (hshown : shown.disk = ((tree.download source scratch).after h).disk)
    (hshown' : shown'.disk = ((tree.download source scratch).after k).disk) :
    Twins place ((Bytecode.install compiler scratch destination).after shown).disk
      ((Bytecode.install compiler scratch destination).after shown').disk := by
  obtain ⟨hreport, hfound⟩ := honly report hok
  obtain ⟨hreport', hfound'⟩ := honly' report' hok'
  obtain ⟨deeds, hdeeds, hwithin⟩ := Source.does_download source (tree.ends source) scratch h
  obtain ⟨deeds', hdeeds', hwithin'⟩ := Source.does_download source (tree.ends source) scratch k
  have hloaded := wellFormed_download tree source scratch hd
  have hloaded' := wellFormed_download tree source scratch hd'
  have hroot := isFolder_of_saved htidy hd htwins.free htext hok (hreport ▸ hsaved)
  have hroot' := isFolder_of_saved htidy hd' htwins.free' htext hok' (hreport' ▸ hsaved)
  have halike := htwins.within hd hd' hplace hdeeds hwithin hdeeds' hwithin' hroot hroot'
  have hstart := hdeeds.grows.start
  have hleaf : ∀ p, .leaf p ∈ shown'.disk.leavesBelow scratch ↔
      .leaf p ∈ shown.disk.leavesBelow scratch := by
    intro p
    rw [hshown, hshown']
    constructor
    · intro hp
      exact leaf_of_saved htidy hd htwins.free htext hok (hreport ▸ hfound' p hp)
    · intro hp
      exact leaf_of_saved htidy hd' htwins.free' htext hok' (hreport' ▸ hfound p hp)
  refine Bytecode.install_twins hcomputes ?_ ?_ ?_ ?_ ?_ ?_
    (leaves_eq_of_mem_iff (hshown ▸ hloaded) (hshown' ▸ hloaded') hleaf) ?_
  · exact Path.components_ne_nil htext
  · exact hshown ▸ hloaded
  · rw [hshown, hshown']
    exact halike
  · rw [hshown]
    exact hdeeds.grows.reaches.2 hplace
  · rw [hshown]
    exact hstart ▸ hoff
  · rw [hshown]
    have hscratch := hoff' _ (List.prefix_refl _)
    rw [← (reaches_iff_landing htwins.free).1 hplace,
      (reaches_iff_landing htwins.free).1 hbase] at hscratch
    exact hstart ▸ hscratch
  · intro p hp
    rw [hshown] at hp
    rw [hshown, hshown']
    have hmem := hfound p hp
    exact read_alike htidy htwins hok hok' (hreport ▸ hmem) (hreport' ▸ hmem)

/-- The disk grows until the workspace is cleared away. -/
theorem grows_installed {shown : Host} (hcompiler : compiler.WritesTarget) (hd : h.disk.WellFormed)
    (htext : scratch.text ≠ "")
    (hshown : shown.disk = ((tree.download source scratch).after h).disk) :
    h.disk.Grows ((Bytecode.install compiler scratch destination).after shown).disk := by
  obtain ⟨deeds, hdeeds, -⟩ := Source.does_download source (tree.ends source) scratch h
  have hloaded := wellFormed_download tree source scratch hd
  have hinstalled : shown.disk.Grows
      ((Bytecode.install compiler scratch destination).after shown).disk := by
    obtain ⟨more, hmore, -⟩ := Bytecode.install_within hcompiler (Path.components_ne_nil htext)
      (hshown ▸ hloaded)
    exact hmore.grows
  exact hdeeds.grows.trans (hshown ▸ hinstalled)

/-- Clearing the workspace away changes nothing at the destination. -/
theorem node?_of_cleared {mid : Host} {other : Location} (hfree : ∀ loc, h.disk.link? loc = none)
    (hplace : h.disk.Reaches scratch place) (hgrows : h.disk.Grows mid.disk)
    (hother : ¬ place <+: other) :
    ((Directory.clearAway scratch).after mid).disk.node? other = mid.disk.node? other :=
  Directory.node?_clearAway (fun loc => (hgrows.links loc).trans (hfree loc))
    (hgrows.reaches.2 hplace) hother

end Alike

/-- The workspace and the destination of a gem with the name of an entry keep off each other in an
output directory that names lead to. -/
theorem off_of_names {outputDir : Path} {names : List String} {package : String}
    (hout : outputDir.components = names.map .name) (hpackage : IsEntryName package)
    (start : Location) :
    Off (start ++ (names ++ ["." ++ package ++ ".download"])) start
        (outputDir.child package).components ∧
      Off (start ++ (names ++ [package])) start (workspace outputDir package).components := by
  have hne : "." ++ package ++ ".download" ≠ package := by
    intro heq
    have hlength := congrArg String.length heq
    simp only [String.length_append, show ".download".length = 9 by decide] at hlength
    omega
  have hapart : ∀ {n m : String}, n ≠ m → ¬ start ++ (names ++ [n]) <+: start ++ (names ++ [m]) := by
    intro n m hnm hbelow
    rw [List.prefix_append_right_inj, List.prefix_append_right_inj] at hbelow
    exact hnm (by simpa using hbelow)
  have hdestination : (outputDir.child package).components = (names ++ [package]).map .name := by
    rw [Path.components_child hpackage, hout, List.map_append]
    rfl
  have hscratch : (workspace outputDir package).components =
      (names ++ ["." ++ package ++ ".download"]).map .name := by
    have hchild : (workspace outputDir package).components = _ :=
      Path.components_child (isEntryName_workspace hpackage.no_slash)
    rw [hchild, hout, List.map_append]
    rfl
  rw [hdestination, hscratch]
  exact ⟨.of_names (hapart hne), .of_names (hapart hne.symm)⟩

/-- What leftovers of the workspace do to an installation.  A file that is found in the workspace is
one that was downloaded, or it stood there before.  On two disks that differ in the workspace
alone, if both downloads saved the same and nothing else is found, the same is left at the
destination, but for the times of files. -/
theorem installCompiled_alike (compiler : Bytecode.Compiler)
    (f : Path → Path → Except Fault ByteArray → Option ByteArray) (tree : RemoteTree)
    (source : String) (outputDir : Path) (package : String) (h k : Host) (place base : Location)
    (hcomputes : compiler.Computes f) (htidy : tree.toSource.Tidy)
    (hd : h.disk.WellFormed) (hd' : k.disk.WellFormed) (htwins : Twins place h.disk k.disk)
    (hplace : h.disk.Reaches (workspace outputDir package) place)
    (hbase : h.disk.Reaches (outputDir.child package) base)
    (hoff : Off place h.disk.start (outputDir.child package).components)
    (hoff' : Off base h.disk.start (workspace outputDir package).components) :
    let scratch := workspace outputDir package
    let loaded := ((tree.download source scratch).after h).disk
    let step := installCompiled compiler tree source outputDir package
    (∀ report, (tree.download source scratch).answer h = .ok report →
      ∀ p bytes, .leaf p ∈ loaded.leavesBelow scratch → loaded.readFile p = .ok bytes →
        ∃ names, p = scratch.descend names ∧
          (p ∈ report.saved ∧ (tree.fetch (descend source names)).outcome = .ok bytes ∨
            ∃ t m, h.disk.node? (place ++ names) = some (.file bytes t m))) ∧
      ∀ saved, LoadsOnly tree source scratch h saved → LoadsOnly tree source scratch k saved →
        ∀ names, ((step.after k).disk.node? (base ++ names)).map Node.untimed =
          ((step.after h).disk.node? (base ++ names)).map Node.untimed := by
  intro scratch loaded step
  obtain ⟨_, _, hneat, -, -⟩ := workspace_spec outputDir package
  have htext : scratch.text ≠ "" := hneat.text_ne_empty
  have hws : scratch.components ≠ [] := Path.components_ne_nil htext
  constructor
  · intro report hok p bytes hleaf hread
    obtain ⟨names, -, hnames, rfl⟩ := descend_of_mem_walkWithin (wellFormed_download tree source scratch hd) hleaf
    refine ⟨names, rfl, ?_⟩
    rcases Source.saved_or_stood htidy (fun _ _ _ => htwins.free _) hok hnames hread with
      hsaved | ⟨loc, t, m, hreaches, hnode⟩
    · obtain ⟨others, bytes', -, hothers, hpath, hfetch, hread'⟩ :=
        Source.exists_names_of_saved htidy (fun _ _ _ => htwins.free _) hok hsaved
      obtain rfl := Path.descend_injective hnames hothers hpath
      obtain rfl : bytes = bytes' := Except.ok.inj (hread.symm.trans hread')
      exact Or.inl ⟨hsaved, hfetch⟩
    · obtain ⟨_, hdest, rfl⟩ := (reaches_below (fun _ _ _ => htwins.free _)
        (Path.components_descend hnames)).1 hreaches
      rw [hdest.unique hplace] at hnode
      exact Or.inr ⟨t, m, hnode⟩
  · intro saved honly honly' names
    obtain ⟨mid, hafter, hstages⟩ :=
      installCompiled_stages compiler tree source outputDir package h
    obtain ⟨mid', hafter', hstages'⟩ :=
      installCompiled_stages compiler tree source outputDir package k
    have hscratch : ¬ base <+: place := by
      rw [(reaches_iff_landing htwins.free).1 hplace]
      exact hoff' _ (List.prefix_refl _)
    have hother : ¬ place <+: base ++ names :=
      not_prefix_of_off (hoff.reaches htwins.free hbase) hscratch names
    suffices halike : h.disk.Grows mid.disk ∧ k.disk.Grows mid'.disk ∧
        (mid'.disk.node? (base ++ names)).map Node.untimed =
          (mid.disk.node? (base ++ names)).map Node.untimed by
      obtain ⟨hgrows, hgrows', hsame⟩ := halike
      have hleft : (step.after h).disk.node? (base ++ names) = mid.disk.node? (base ++ names) := by
        rw [hafter]
        exact node?_of_cleared htwins.free hplace hgrows hother
      have hright : (step.after k).disk.node? (base ++ names) = mid'.disk.node? (base ++ names) := by
        rw [hafter']
        exact node?_of_cleared htwins.free' (htwins.reaches.2 hplace) hgrows' hother
      exact (congrArg _ hright).trans (hsame.trans (congrArg _ hleft.symm))
    cases hlisted : (tree.list source).outcome with
    | error cause =>
      have herror : ∀ g : Host, ∃ e, (tree.download source scratch).answer g = .error e :=
        fun g => ⟨_, congrArg Prod.fst (Source.download_unlisted hlisted (tree.ends source) scratch g)⟩
      obtain ⟨e, he⟩ := herror h
      obtain ⟨e', he'⟩ := herror k
      rw [he] at hstages
      rw [he'] at hstages'
      rw [hstages.2, hstages'.2]
      exact ⟨.refl _, .refl _, htwins.same _ hother⟩
    | ok entries =>
      obtain ⟨report, hok⟩ := Source.download_ok hlisted (tree.ends source) scratch h
      obtain ⟨report', hok'⟩ := Source.download_ok hlisted (tree.ends source) scratch k
      rw [show (tree.download source scratch).answer h = _ from hok] at hstages
      rw [show (tree.download source scratch).answer k = _ from hok'] at hstages'
      obtain ⟨-, shown, hshown, hmid⟩ := hstages
      obtain ⟨-, shown', hshown', hmid'⟩ := hstages'
      rw [hmid, hmid']
      refine ⟨grows_installed hcomputes.writesTarget hd htext hshown,
        grows_installed hcomputes.writesTarget hd' htext hshown', ?_⟩
      by_cases hsaved : saved = []
      · subst hsaved
        have hnot := hoff.reaches htwins.free hbase
        rw [node?_of_unsaved htwins.free hplace hnot hoff' hok honly hshown,
          node?_of_unsaved htwins.free' (htwins.reaches.2 hplace) hnot (htwins.start ▸ hoff') hok'
            honly' hshown']
        exact htwins.same _ hother
      · exact (install_alike hcomputes htidy hd hd' htwins htext hplace hbase hoff hoff' hok hok'
          honly honly' hsaved hshown hshown').same _ hother

/-- A project with an empty output directory. -/
def clearDisk : Disk := ⟨[(["p"], .folder), (["p", "lib"], .folder)], ["p"], 0⟩

/-- The same with a workspace that holds an older file of the gem. -/
def strewnDisk : Disk where
  nodes := (["p", "lib", ".led.download"], .folder) ::
    (["p", "lib", ".led.download", "m.rake"], .file "older".toUTF8 5 384) :: clearDisk.nodes
  start := ["p"]
  clock := 9

/-- The small gem is saved alone where its one file can be written and nothing else is found. -/
theorem loadsOnly_ledTree {d : Disk}
    (hfate : (Visit.mk "g/led" scratch (.below "g/led" "m.rake" .file)
      (ledTree.toTree.alone (join "g/led" "m.rake") (scratch.child "m.rake") d)).saved? =
        some (scratch.child "m.rake"))
    (hleaves : (ledTree.toTree.leaves (join "g/led" "m.rake") (scratch.child "m.rake") d).leavesBelow
      scratch = [.leaf (scratch.child "m.rake")]) :
    LoadsOnly ledTree.toTree "g/led" scratch ⟨d, []⟩ [scratch.child "m.rake"] := by
  have hlisted : (ledTree.toTree.list "g/led").outcome = .ok [.below "g/led" "m.rake" .file] := rfl
  intro report hok
  obtain ⟨entries, visits, hlists, htour, hcarries, rfl, -⟩ := Source.download_carried hok
  obtain rfl := Except.ok.inj (hlisted.symm.trans hlists)
  change Source.Tour _ _ _ _ _ _ ((ledTree.toTree.download "g/led" scratch).after ⟨d, []⟩).disk
    at htour
  change Source.Carries _ _ _ ((ledTree.toTree.download "g/led" scratch).after ⟨d, []⟩).disk
    at hcarries
  generalize ((ledTree.toTree.download "g/led" scratch).after ⟨d, []⟩).disk = after at *
  have hname : isPlainName (Entry.below "g/led" "m.rake" .file).name = true := by decide +kernel
  obtain ⟨fate, mid, more, rfl, -, hrest⟩ := htour.of_file hname rfl
  cases hrest
  cases hcarries with
  | other hfile => exact absurd ⟨hname, rfl⟩ hfile
  | file _ hfate' hrest =>
    cases hrest
    obtain rfl : fate = ledTree.toTree.alone (join "g/led" "m.rake") (scratch.child "m.rake") d :=
      hfate'
    refine ⟨by rw [reportOf, List.filterMap_cons_some hfate, List.filterMap_nil], fun p hp => ?_⟩
    have hfound : .leaf p ∈ (ledTree.toTree.leaves (join "g/led" "m.rake")
      (scratch.child "m.rake") d).leavesBelow scratch := hp
    rw [hleaves] at hfound
    cases List.mem_singleton.1 hfound
    exact List.mem_singleton.2 rfl

/-- The leftovers of the small gem are of no consequence where they hold no other file. -/
theorem installCompiled_alike_led :
    let step := installCompiled (.trial []) ledTree.toTree "g/led" ⟨"lib"⟩ "led"
    ∀ names,
      ((step.after ⟨strewnDisk, []⟩).disk.node? (["p", "lib", "led"] ++ names)).map Node.untimed =
        ((step.after ⟨clearDisk, []⟩).disk.node? (["p", "lib", "led"] ++ names)).map
          Node.untimed := by
  intro step
  have hws : (workspace ⟨"lib"⟩ "led").components = ["lib", ".led.download"].map .name := by decide
  have hdestination : (Path.child ⟨"lib"⟩ "led").components = ["lib", "led"].map .name := by decide
  have hfree : ∀ loc, clearDisk.link? loc = none := link?_eq_none (by simp [clearDisk])
  have hfree' : ∀ loc, strewnDisk.link? loc = none :=
    link?_eq_none (by simp [strewnDisk, clearDisk])
  have htwins : Twins ["p", "lib", ".led.download"] clearDisk strewnDisk := by
    refine ⟨rfl, hfree, hfree', fun loc hloc => ?_⟩
    have hbelow : ∀ names, ["p", "lib", ".led.download"] ++ names ≠ loc := by
      rintro names rfl
      exact hloc (List.prefix_append _ _)
    have hroot := hbelow []
    have hfile := hbelow ["m.rake"]
    simp only [List.cons_append, List.nil_append] at hroot hfile
    simp [node?, strewnDisk, hroot, hfile]
  have hplace : clearDisk.Reaches (workspace ⟨"lib"⟩ "led") ["p", "lib", ".led.download"] := by
    rw [Reaches, hws]
    exact (leads_names _ fun _ => hfree _).2 rfl
  have hbase : clearDisk.Reaches (Path.child ⟨"lib"⟩ "led") ["p", "lib", "led"] := by
    rw [Reaches, hdestination]
    exact (leads_names _ fun _ => hfree _).2 rfl
  have htidy : ledTree.toTree.toSource.Tidy := by
    refine StoredTree.tidy fun listing hlisting held hheld => ?_
    obtain rfl := List.mem_singleton.1 hlisting
    cases hheld
    decide +kernel
  have hlib : (Path.mk "lib").components = ["lib"].map .name := by decide
  obtain ⟨hoff, hoff'⟩ := off_of_names hlib (show IsEntryName "led" by decide) ["p"]
  refine (installCompiled_alike (.trial []) (Bytecode.Compiler.trialOutput []) ledTree.toTree "g/led"
    ⟨"lib"⟩ "led" ⟨clearDisk, []⟩ ⟨strewnDisk, []⟩ _ _ (Bytecode.Compiler.trial_computes []) htidy
    (by decide) (by decide) htwins hplace hbase hoff hoff').2
    [(workspace ⟨"lib"⟩ "led").child "m.rake"] ?_ ?_
  · exact loadsOnly_ledTree (by decide +kernel) (by decide +kernel)
  · exact loadsOnly_ledTree (by decide +kernel) (by decide +kernel)

end Commands

end GemCourier
