/-
GemCourier/Proofs/Bytecode/Collisions.lean

What the targets of an installation hold.

The files of the workspace are not written as long as none of them lies where
one is installed, so what is read of each is what it held at the beginning; and a
target is changed after its own file by files whose targets lead to the same
place alone.  Links in the destination can lead any two targets to one place;
without them it takes a pair of a script and the bytecode of its name.  Then the
bytecode is copied and the script compiled over it, and the report lists the
target twice.

Main results: `exists_account`, `Account.holds`, `install_accounts`.
-/
import GemCourier.Proofs.Bytecode.Pairs
import GemCourier.Proofs.Disk.Entering
import GemCourier.Proofs.Disk.Twins
import GemCourier.Proofs.Host.Delivery

namespace GemCourier.Bytecode

open Disk

variable {compiler : Compiler} {f : ByteArray → Option ByteArray}
  {workspace destination source other target : Path} {sources : List Path}
  {d d' : Disk} {h : Host} {loc : Location} {bytes : ByteArray}

/-- A file that was written without a fault holds what was written. -/
theorem readFile_of_written
    (hok : (Act.change (·.writeFile target bytes)).answer h = .ok ()) :
    ((Act.change (·.writeFile target bytes)).after h).disk.readFile target = .ok bytes := by
  cases hwrite : h.disk.writeFile target bytes with
  | error fault =>
    obtain ⟨hanswer, -⟩ := Act.change_error (f := (·.writeFile target bytes)) hwrite
    rw [hanswer] at hok
    cases hok
  | ok d =>
    obtain ⟨-, hafter⟩ := Act.change_ok (f := (·.writeFile target bytes)) hwrite
    obtain ⟨_, _, _, _, _, _, hnow⟩ := writeFile_ok hwrite
    rw [hafter]
    exact hnow

/-! ### Compilers that are functions -/

/-- A compiler that does nothing to the disk but write the target it is given, and that has, where
it succeeds, written there what the function makes of the bytes of the script. -/
structure Compiler.Compiles (c : Compiler) (f : ByteArray → Option ByteArray) : Prop where
  writesTarget : c.WritesTarget
  output : ∀ source target (h : Host), (c.compile source target).answer h = .ok () →
    ∃ bytes made, h.disk.readFile source = .ok bytes ∧ f bytes = some made ∧
      ((c.compile source target).after h).disk.readFile target = .ok made

/-- The compiler for trials puts its mark in front of every script. -/
theorem Compiler.trial_compiles :
    (trial []).Compiles fun bytes => some (mark.toUTF8 ++ bytes) where
  writesTarget := trial_writesTarget []
  output := by
    intro source target h hok
    have htrial : (trial []).compile source target = markScript source target := by
      simp only [trial]
      cases source.fileName? <;> rfl
    rw [htrial] at hok ⊢
    cases hread : h.disk.readFile source with
    | error fault => simp [markScript, hread] at hok
    | ok bytes =>
      refine ⟨bytes, _, rfl, rfl, ?_⟩
      rw [markScript, Act.answer_bind, Act.answer_disk, Act.after_disk] at hok
      rw [markScript, Act.after_bind, Act.answer_disk, Act.after_disk]
      simp only [hread, Act.answer_bind, Act.after_bind] at hok ⊢
      cases hwritten : (Act.change (·.writeFile target (mark.toUTF8 ++ bytes))).answer h with
      | error fault =>
        rw [hwritten] at hok
        cases hok
      | ok _ => exact readFile_of_written hwritten

/-! ### Reading what was found -/

/-- What a walk finds is listed in a directory at or below the one it starts from. -/
theorem exists_listed_of_leaf (hd : d.WellFormed) {steps : Nat} {folder : Path}
    (h : .leaf source ∈ d.walkWithin steps folder) :
    ∃ outer n listed, ∃ names : List String,
      outer.components = folder.components ++ names.map .name ∧ source = outer.child n ∧
        d.names outer = .ok listed ∧ n ∈ listed ∧ d.isFolder source = false := by
  induction steps generalizing folder with
  | zero => simp [walkWithin] at h
  | succ steps ih =>
    rw [walkWithin] at h
    split at h
    · simp at h
    · next children hchildren =>
      obtain ⟨listed, hlisted, rfl⟩ := childrenOf_ok_iff.1 hchildren
      obtain ⟨child, hchild, hp⟩ := List.mem_flatMap.1 h
      obtain ⟨n, hn, rfl⟩ := List.mem_map.1 hchild
      split at hp
      · obtain ⟨outer, m, listed', names, houter, hrest⟩ := ih hp
        refine ⟨outer, m, listed', n :: names, ?_, hrest⟩
        rw [houter, Path.components_child (isEntryName_of_names hd hlisted hn)]
        simp
      · next hfolder =>
        obtain rfl : source = folder.child n := by simpa using hp
        exact ⟨folder, n, listed, [], by simp, rfl, hlisted, hn, by simpa using hfolder⟩

/-- A file that is found in a workspace without links is read later only if it could be read when
it was found. -/
theorem exists_readFile_of_leaf (hd : d.WellFormed) (hfree : d.LinkFreeBelow workspace)
    (hleaf : .leaf source ∈ d.leavesBelow workspace) (hgrows : d.Grows d')
    (hread : d'.readFile source = .ok bytes) : ∃ before, d.readFile source = .ok before := by
  obtain ⟨outer, n, listed, names, houter, rfl, hlisted, hn, hnone⟩ :=
    exists_listed_of_leaf hd hleaf
  have hentry := isEntryName_of_names hd hlisted hn
  obtain ⟨loc, hfind, hfolder, rfl⟩ := names_ok_iff.1 hlisted
  obtain ⟨loc', henters⟩ := enters_of_isFolder (isFolder_iff.2 (node_ok_iff.2 ⟨loc, hfind, hfolder⟩))
  have hreaches : d.Reaches outer loc := reaches_of_find (Or.inl (by simp)) hfind
  obtain rfl : loc' = loc := henters.reaches.unique hreaches
  have hlink : d.link? (loc' ++ [n]) = none := by
    obtain ⟨base, hbase, rfl⟩ := (reaches_below hfree houter).1 hreaches
    rw [List.append_assoc]
    exact hfree base hbase _
  have hneat : (outer.child n).Neat n := Path.neat_child hentry
  have hc := Path.components_child (p := outer) hentry
  have hnode := henters.node_entry hneat hc hlink
  have hnode' := (henters.grows hgrows).node_entry hneat hc (by rw [hgrows.links, hlink])
  obtain ⟨t, m, hfile⟩ := readFile_ok_iff.1 hread
  -- as it is read later, nothing about its path keeps it from being looked up
  cases hrefused : (outer.child n).refusal? n with
  | some fault =>
    rw [hrefused, hfile] at hnode'
    cases hnode'
  | none =>
    rw [hrefused] at hnode
    obtain ⟨node, hat⟩ := Option.ne_none_iff_exists'.1 (mem_namesBelow.1 hn)
    rw [hat] at hnode
    cases node with
    | folder =>
      rw [isFolder_iff.2 hnode] at hnone
      cases hnone
    | file before t' m' => exact ⟨before, readFile_ok_iff.2 ⟨t', m', hnode⟩⟩
    | link text =>
      rw [link?_eq_some_iff.2 hat] at hlink
      cases hlink

/-! ### Accounts -/

/-- The deed makes a directory, or it writes the target of one of the files. -/
def Installs (workspace destination : Path) (sources : List Path) : Deed → Prop
  | .made _ => True
  | .wrote p _ => ∃ source ∈ sources, target? workspace destination source = some p

theorem Installs.mono {more : List Path} {deed : Deed}
    (h : Installs workspace destination sources deed) (hmore : ∀ s ∈ sources, s ∈ more) :
    Installs workspace destination more deed := by
  cases deed with
  | made p => trivial
  | wrote p bytes =>
    obtain ⟨source, hsource, htarget⟩ := h
    exact ⟨source, hmore source hsource, htarget⟩

theorem installAt_installs (hcompiler : compiler.WritesTarget)
    (htarget : target? workspace destination source = some target) (hsource : source ∈ sources) :
    (installAt compiler source target).Does (Installs workspace destination sources) := by
  refine (does_installAt hcompiler source target).mono ?_
  rintro _ (⟨p, rfl, -⟩ | ⟨bytes, rfl⟩)
  · trivial
  · exact ⟨source, hsource, htarget⟩

theorem installAll_installs (hcompiler : compiler.WritesTarget) (sources : List Path) :
    (installAll compiler workspace destination sources).Does
      (Installs workspace destination sources) :=
  does_installAll fun _ hsource _ hrelative =>
    installAt_installs hcompiler (target?_eq_some.2 ⟨_, hrelative, rfl⟩) hsource

/-- How a file came to be accounted for: it was installed on a host that the files before it had
left, and the files behind it were installed on the host that it left.  Both wrote their own
targets. -/
structure Account (compiler : Compiler) (workspace destination : Path) (d : Disk)
    (front : List Path) (source : Path) (rest : List Path) (target : Path) (d' : Disk) : Prop where
  isTarget : target? workspace destination source = some target
  run : ∃ k : Host,
    (∃ deeds, d.Does deeds k.disk ∧ ∀ deed ∈ deeds, Installs workspace destination front deed) ∧
      (installAt compiler source target).answer k = .ok () ∧
      ∃ deeds, ((installAt compiler source target).after k).disk.Does deeds d' ∧
        ∀ deed ∈ deeds, Installs workspace destination rest deed

/-- One more file was installed before all others. -/
theorem Account.later {first : Path} {front rest : List Path} {deeds : List Deed} {mid : Disk}
    (h : Account compiler workspace destination mid front source rest target d')
    (hdeeds : d.Does deeds mid) (hall : ∀ deed ∈ deeds, Installs workspace destination [first] deed) :
    Account compiler workspace destination d (first :: front) source rest target d' where
  isTarget := h.isTarget
  run := by
    obtain ⟨k, ⟨deeds', hdeeds', hall'⟩, hrest⟩ := h.run
    refine ⟨k, ⟨deeds ++ deeds', hdeeds.append hdeeds', fun deed hdeed => ?_⟩, hrest⟩
    rcases List.mem_append.1 hdeed with hdeed | hdeed
    · exact (hall deed hdeed).mono (by simp)
    · exact (hall' deed hdeed).mono (by simp +contextual)

/-- Every target that is reported has its account. -/
theorem exists_account (hcompiler : compiler.WritesTarget) {script : Bool}
    (ht : target ∈
      ((installAll compiler workspace destination sources).answer h).installed script) :
    ∃ front source rest, sources = front ++ source :: rest ∧ isScript source = script ∧
      Account compiler workspace destination h.disk front source rest target
        ((installAll compiler workspace destination sources).after h).disk := by
  induction sources generalizing h with
  | nil => cases script <;> simp [installAll, InstallReport.installed, InstallReport.nothing] at ht
  | cons first others ih =>
    cases hrelative : first.relativeTo? workspace with
    | none =>
      have hskip : installAll compiler workspace destination (first :: others) =
          installAll compiler workspace destination others := by rw [installAll, hrelative]
      rw [hskip] at ht ⊢
      obtain ⟨front, source, rest, rfl, hscript, haccount⟩ := ih ht
      exact ⟨first :: front, source, rest, rfl, hscript, haccount.later (.nothing _) (by simp)⟩
    | some relative =>
      obtain ⟨noted, hnoted, hafter, hreport⟩ :=
        installAll_cons compiler destination others hrelative h
      have htarget : target? workspace destination first =
          some (targetOf destination first relative) := target?_eq_some.2 ⟨_, hrelative, rfl⟩
      rw [hafter]
      rcases (hreport script target).1 ht with ⟨hok, hscript, rfl⟩ | hmem
      · have hinstalls : (installAll compiler workspace destination others).Does
            (Installs workspace destination others) := installAll_installs hcompiler others
        have hothers := hinstalls noted
        rw [hnoted] at hothers
        exact ⟨[], first, others, rfl, hscript, htarget, h, ⟨[], .nothing _, by simp⟩, hok, hothers⟩
      · obtain ⟨deeds, hdeeds, hall⟩ :=
          installAt_installs hcompiler htarget (List.mem_singleton.2 rfl) h
        rw [← hnoted] at hdeeds
        obtain ⟨front, source, rest, rfl, hscript, haccount⟩ := ih hmem
        exact ⟨first :: front, source, rest, rfl, hscript, haccount.later hdeeds hall⟩

/-- What is installed of the bytes of a file. -/
def made? (f : ByteArray → Option ByteArray) (script : Bool) (bytes : ByteArray) :
    Option ByteArray :=
  if script then f bytes else some bytes

/-- A file that is installed is read once the directory of its target is there, and its target
holds what is made of it. -/
theorem installAt_ok (hcompiles : compiler.Compiles f)
    (hok : (installAt compiler source target).answer h = .ok ()) :
    ∃ bytes made, ((Directory.ensureParent target).after h).disk.readFile source = .ok bytes ∧
      made? f (isScript source) bytes = some made ∧
      ((installAt compiler source target).after h).disk.readFile target = .ok made := by
  simp only [installAt, Act.answer_bind, Act.after_bind] at hok ⊢
  generalize (Directory.ensureParent target).after h = k at hok ⊢
  cases hready : (Directory.ensureParent target).answer h with
  | error e => simp [hready] at hok
  | ok _ =>
    simp only [hready] at hok ⊢
    cases hscript : isScript source with
    | true =>
      simp only [hscript, if_true, Act.answer_bind, Act.after_bind] at hok ⊢
      cases hcompiled : (compiler.compile source target).answer k with
      | error e => simp [hcompiled] at hok
      | ok _ => exact hcompiles.output source target k hcompiled
    | false =>
      simp only [hscript, Bool.false_eq_true, if_false] at hok ⊢
      cases hread : k.disk.readFile source with
      | error fault => simp [copyTo, hread] at hok
      | ok bytes =>
        refine ⟨bytes, bytes, rfl, rfl, ?_⟩
        cases hwritten : (Act.change (·.writeFile target bytes)).answer k with
        | error fault => simp [copyTo, hread, hwritten] at hok
        | ok _ => simpa [copyTo, hread, hwritten] using readFile_of_written hwritten

/-! ### Places -/

/-- The file has a target below the destination, and the target leads to the place. -/
def InstalledAt (d : Disk) (workspace destination source : Path) (loc : Location) : Prop :=
  ∃ target, target? workspace destination source = some target ∧ Lies target destination ∧
    d.Reaches target loc

theorem InstalledAt.grows (hgrows : d.Grows d') :
    InstalledAt d' workspace destination source loc ↔
      InstalledAt d workspace destination source loc := by
  simp only [InstalledAt, hgrows.reaches]

/-- A target under whose path there is a file lies below the destination. -/
theorem lies_of_name {cs : List Component} {n : String} (hws : workspace.components ≠ [])
    (hsource : Lies source workspace) (htarget : target? workspace destination source = some target)
    (hname : target.components = cs ++ [.name n]) : Lies target destination := by
  obtain ⟨r, hr, rfl⟩ := target?_eq_some.1 htarget
  refine (targetOf_spec hws hsource hr).resolve_right ?_
  rintro ⟨names, hup⟩
  have hlast := (List.append_inj' (hup.symm.trans hname) rfl).2
  cases hlast

/-- What is written while files are installed is written where one of them is installed. -/
theorem exists_installedAt_of_wrote {deeds : List Deed} (hws : workspace.components ≠ [])
    (hd : d.WellFormed) (hlies : ∀ s ∈ sources, Lies s workspace) (hdeeds : d.Does deeds d')
    (hall : ∀ deed ∈ deeds, Installs workspace destination sources deed)
    (hwrote : .wrote target bytes ∈ deeds) (hreaches : d.Reaches target loc) :
    ∃ s ∈ sources, InstalledAt d workspace destination s loc := by
  obtain ⟨s, hs, htarget⟩ := hall _ hwrote
  obtain ⟨cs, n, hname⟩ := hdeeds.exists_name_of_wrote hd hwrote
  exact ⟨s, hs, target, htarget, lies_of_name hws (hlies s hs) htarget hname, hreaches⟩

/-- What can be read where no file is installed reads the same afterwards. -/
theorem readFile_of_installs {p : Path} {deeds : List Deed} (hws : workspace.components ≠ [])
    (hd : d.WellFormed) (hlies : ∀ s ∈ sources, Lies s workspace) (hdeeds : d.Does deeds d')
    (hall : ∀ deed ∈ deeds, Installs workspace destination sources deed)
    (hoff : ∀ s ∈ sources, ∀ loc, InstalledAt d workspace destination s loc → ¬ d.Reaches p loc)
    (hread : d.readFile p = .ok bytes) : d'.readFile p = .ok bytes := by
  refine hdeeds.readFile_eq hread fun q b hq loc hloc => ?_
  obtain ⟨s, hs, hat⟩ := exists_installedAt_of_wrote hws hd hlies hdeeds hall hq hloc
  exact hoff s hs loc hat

/-- No file of the workspace lies where one of its files is installed. -/
def Outside (d : Disk) (workspace destination : Path) : Prop :=
  ∀ source other, .leaf source ∈ d.leavesBelow workspace → .leaf other ∈ d.leavesBelow workspace →
    ∀ loc, InstalledAt d workspace destination other loc → ¬ d.Reaches source loc

/-- A destination that is beside the workspace, with no links in either, lies outside of it. -/
theorem outside_of_beside (hd : d.WellFormed) (hfree : d.LinkFreeBelow workspace)
    (hfree' : d.LinkFreeBelow destination) (hbeside : Sync.Beside d workspace destination) :
    Outside d workspace destination := by
  rintro source other hsource - loc ⟨target, -, ⟨names, -, -, hc⟩, hloc⟩ hreaches
  obtain ⟨others, -, -, hc'⟩ := lies_of_leaf hd hsource
  obtain ⟨base, hbase, rfl⟩ := (reaches_below hfree hc').1 hreaches
  exact hbeside.not_reaches hfree' hbase hc others hloc

/-- No other file of the workspace is installed where this one is. -/
def Alone (d : Disk) (workspace destination source : Path) : Prop :=
  ∀ other, .leaf other ∈ d.leavesBelow workspace → other ≠ source →
    ∀ loc, InstalledAt d workspace destination source loc →
      ¬ InstalledAt d workspace destination other loc

/-- A file that is accounted for is installed as it was before all, and it stays so if no file
behind it is installed in the same place. -/
theorem Account.holds {front rest : List Path} (hcompiles : compiler.Compiles f)
    (hws : workspace.components ≠ []) (hd : d.WellFormed) (hfree : d.LinkFreeBelow workspace)
    (houtside : Outside d workspace destination)
    (hfound : ∀ s ∈ front ++ source :: rest, .leaf s ∈ d.leavesBelow workspace)
    (h : Account compiler workspace destination d front source rest target d') :
    Lies target destination ∧ ∃ bytes made, d.readFile source = .ok bytes ∧
      made? f (isScript source) bytes = some made ∧
        ((∀ s ∈ rest, ∀ loc, InstalledAt d workspace destination s loc → ¬ d.Reaches target loc) →
          d'.readFile target = .ok made) := by
  obtain ⟨k, ⟨deeds, hdeeds, hall⟩, hok, deeds', hdeeds', hall'⟩ := h.run
  obtain ⟨bytes, made, hread, hmade, hnow⟩ := installAt_ok hcompiles hok
  have hlies : ∀ s ∈ front ++ source :: rest, Lies s workspace :=
    fun s hs => lies_of_leaf hd (hfound s hs)
  obtain ⟨deeds₁, hdeeds₁, -⟩ := does_installAt hcompiles.writesTarget source target k
  have hthrough := hdeeds.append hdeeds₁
  have hd' := hthrough.wellFormed hd
  -- the source reads as it did before all, since no file was installed where it lies
  obtain ⟨before, hbefore⟩ := exists_readFile_of_leaf hd hfree (hfound source (by simp))
    (hdeeds.grows.trans (Directory.grows_ensureParent target k)) hread
  have hsame : k.disk.readFile source = .ok before :=
    readFile_of_installs hws hd (fun s hs => hlies s (by simp [hs])) hdeeds hall
      (fun s hs => houtside source s (hfound source (by simp)) (hfound s (by simp [hs]))) hbefore
  obtain rfl : before = bytes :=
    Except.ok.inj ((readFile_of_ensureParent target hsame).symm.trans hread)
  obtain ⟨cs, n, hname⟩ := exists_name_of_readFile hd' hnow
  refine ⟨lies_of_name hws (hlies source (by simp)) h.isTarget hname, before, made, hbefore, hmade,
    fun hoff => ?_⟩
  refine readFile_of_installs hws hd' (fun s hs => hlies s (by simp [hs])) hdeeds' hall' ?_ hnow
  intro s hs loc hat
  rw [hthrough.grows.reaches]
  exact hoff s hs loc ((InstalledAt.grows hthrough.grows).1 hat)

/-! ### What is left -/

/-- Where no link stands in the destination, two files are installed in the same place only if they
are the same or a pair. -/
theorem same_or_pair_of_place (hd : d.WellFormed) (hfree : d.LinkFreeBelow destination)
    (hsource : .leaf source ∈ d.leavesBelow workspace)
    (hother : .leaf other ∈ d.leavesBelow workspace)
    (hat : InstalledAt d workspace destination source loc)
    (hat' : InstalledAt d workspace destination other loc) :
    source = other ∨ Pair source other ∨ Pair other source := by
  obtain ⟨target, htarget, ⟨names, -, -, hc⟩, hloc⟩ := hat
  obtain ⟨target', htarget', ⟨names', -, -, hc'⟩, hloc'⟩ := hat'
  obtain rfl := names_unique hfree hc hc' hloc hloc'
  exact (target_same_iff hd hsource hother htarget htarget').1
    (hc.trans hc'.symm)

/-- What became of a file whose target is reported. -/
theorem exists_installed (hcompiles : compiler.Compiles f) (hd : h.disk.WellFormed)
    (hfree : h.disk.LinkFreeBelow workspace) (houtside : Outside h.disk workspace destination)
    {script : Bool}
    (ht : target ∈ ((install compiler workspace destination).answer h).installed script) :
    ∃ source bytes made, .leaf source ∈ h.disk.leavesBelow workspace ∧ isScript source = script ∧
      target? workspace destination source = some target ∧ h.disk.readFile source = .ok bytes ∧
        made? f script bytes = some made ∧
          (Alone h.disk workspace destination source ∨ h.disk.LinkFreeBelow destination ∧
              (∀ other, .leaf other ∈ h.disk.leavesBelow workspace → ¬ Pair other source) →
            ((install compiler workspace destination).after h).disk.readFile target = .ok made) := by
  let sources := (h.disk.leavesBelow workspace).filterMap Finding.leaf?
  let mid := (Finding.report (h.disk.leavesBelow workspace)).after h
  have hmid : mid.disk = h.disk := disk_after_report _ h
  have hanswer : (install compiler workspace destination).answer h =
      (installAll compiler workspace destination sources).answer mid := by
    simp only [install, Act.answer_bind, Act.answer_disk, Act.after_disk, sources, mid]
  have hafter : (install compiler workspace destination).after h =
      (installAll compiler workspace destination sources).after mid := by
    simp only [install, Act.after_bind, Act.answer_disk, Act.after_disk, sources, mid]
  rw [hanswer] at ht
  obtain ⟨front, source, rest, hsources, hscript, haccount⟩ :=
    exists_account hcompiles.writesTarget ht
  rw [hmid, ← hafter] at haccount
  have hfound : ∀ s ∈ front ++ source :: rest, .leaf s ∈ h.disk.leavesBelow workspace :=
    fun s hs => Finding.mem_filterMap_leaf?.1 (show s ∈ sources from hsources ▸ hs)
  have hsource := hfound source (by simp)
  have hws := components_ne_nil_of_leaf hsource
  -- the files behind it come after it in the order of names
  have hbehind : ∀ s ∈ rest, Before workspace source s := by
    have hascends : sources.Pairwise (Before workspace) := walkWithin_ascends hd _ workspace
    rw [hsources] at hascends
    exact (List.pairwise_cons.1 (List.pairwise_append.1 hascends).2.1).1
  obtain ⟨hlies, bytes, made, hread, hmade, hholds⟩ :=
    haccount.holds hcompiles hws hd hfree houtside hfound
  refine ⟨source, bytes, made, hsource, hscript, haccount.isTarget, hread, hscript ▸ hmade,
    fun hspared => hholds fun s hs loc hat hreaches => ?_⟩
  have hother := hfound s (by simp [hs])
  have hhere : InstalledAt h.disk workspace destination source loc :=
    ⟨target, haccount.isTarget, hlies, hreaches⟩
  have hne : s ≠ source := by
    rintro rfl
    exact (hbehind s hs).asymm (hbehind s hs)
  rcases hspared with halone | ⟨hfree', hunpaired⟩
  · exact halone s hother hne loc hhere hat
  · rcases same_or_pair_of_place hd hfree' hsource hother hhere hat with heq | hpair | hpair
    · exact hne heq.symm
    · obtain ⟨_, _, hnames, rfl⟩ := exists_names_of_leaf hd hsource
      obtain ⟨_, _, hnames', rfl⟩ := exists_names_of_leaf hd hother
      exact hpair.not_before hnames hnames' (hbehind _ hs)
    · exact hunpaired s hother hpair

/-- What is reported of an installation from a workspace without links to a destination outside of
it, with a compiler that is a function.

Every target that is reported is that of a file of the workspace, which was compiled or copied to it
as it was.  In the end the target holds what was made of that file if no other file is installed in
the same place.  Where there are no links in the destination, that is so for all scripts, and for
all other files but the bytecode beside a script of its name: those two have the same target, and
no other two files have. -/
theorem install_accounts (hcompiles : compiler.Compiles f) (hd : h.disk.WellFormed)
    (hfree : h.disk.LinkFreeBelow workspace) (houtside : Outside h.disk workspace destination) :
    (∀ target ∈ ((install compiler workspace destination).answer h).compiled,
      ∃ source bytes made, .leaf source ∈ h.disk.leavesBelow workspace ∧ isScript source = true ∧
        target? workspace destination source = some target ∧
          h.disk.readFile source = .ok bytes ∧ f bytes = some made ∧
            (Alone h.disk workspace destination source ∨ h.disk.LinkFreeBelow destination →
              ((install compiler workspace destination).after h).disk.readFile target =
                .ok made)) ∧
      (∀ target ∈ ((install compiler workspace destination).answer h).copied,
        ∃ source bytes, .leaf source ∈ h.disk.leavesBelow workspace ∧ isScript source = false ∧
          target? workspace destination source = some target ∧
            h.disk.readFile source = .ok bytes ∧
              (Alone h.disk workspace destination source ∨ h.disk.LinkFreeBelow destination ∧
                  (∀ script, .leaf script ∈ h.disk.leavesBelow workspace → ¬ Pair script source) →
                ((install compiler workspace destination).after h).disk.readFile target =
                  .ok bytes)) ∧
        ∀ source other target target', .leaf source ∈ h.disk.leavesBelow workspace →
          .leaf other ∈ h.disk.leavesBelow workspace →
            target? workspace destination source = some target →
              target? workspace destination other = some target' →
                (target.components = target'.components ↔
                  source = other ∨ Pair source other ∨ Pair other source) := by
  refine ⟨fun target ht => ?_, fun target ht => ?_, fun source other target target' hsource hother =>
    target_same_iff hd hsource hother⟩
  · obtain ⟨source, bytes, made, hsource, hscript, htarget, hread, hmade, hholds⟩ :=
      exists_installed hcompiles hd hfree houtside
        (show target ∈ ((install compiler workspace destination).answer h).installed true from ht)
    refine ⟨source, bytes, made, hsource, hscript, htarget, hread, hmade, fun hspared => hholds ?_⟩
    refine hspared.imp_right fun hfree' => ⟨hfree', fun other _ hpair => ?_⟩
    rw [hpair.not_script] at hscript
    cases hscript
  · obtain ⟨source, bytes, made, hsource, hscript, htarget, hread, hmade, hholds⟩ :=
      exists_installed hcompiles hd hfree houtside
        (show target ∈ ((install compiler workspace destination).answer h).installed false from ht)
    obtain rfl : bytes = made := Option.some.inj hmade
    exact ⟨source, bytes, hsource, hscript, htarget, hread, hholds⟩

/-- A host with a workspace that holds a script and the bytecode of its name. -/
def pairedHost : Host where
  disk := {
    nodes := [(["w"], .folder), (["w", "a.mrb"], .file "y".toUTF8 1 0o644),
      (["w", "a.rb"], .file "x".toUTF8 1 0o644)]
    start := []
    clock := 2 }
  transcript := []

theorem leaves_pairedHost :
    pairedHost.disk.leavesBelow ⟨"/w"⟩ = [.leaf ⟨"/w/a.mrb"⟩, .leaf ⟨"/w/a.rb"⟩] := by
  have hnames : pairedHost.disk.names ⟨"/w"⟩ = .ok ["a.mrb", "a.rb"] :=
    names_of_entries ["w"] rfl rfl rfl (by decide)
  rw [leavesBelow_of_flat hnames (by decide +kernel)]
  decide

/-- The one target of a pair is reported twice, and holds what was made of the script. -/
theorem install_accounts_pairedHost :
    ⟨"/out/a.mrb"⟩ ∈ ((install (.trial []) ⟨"/w"⟩ ⟨"/out"⟩).answer pairedHost).compiled ∧
      ⟨"/out/a.mrb"⟩ ∈ ((install (.trial []) ⟨"/w"⟩ ⟨"/out"⟩).answer pairedHost).copied ∧
        ((install (.trial []) ⟨"/w"⟩ ⟨"/out"⟩).after pairedHost).disk.readFile ⟨"/out/a.mrb"⟩ =
          .ok (Compiler.mark.toUTF8 ++ "x".toUTF8) := by
  have hd : pairedHost.disk.WellFormed := by decide
  have hlink : ∀ loc, pairedHost.disk.link? loc = none :=
    fun loc => link?_eq_none (by simp [pairedHost]) loc
  have hfree : ∀ p, pairedHost.disk.LinkFreeBelow p := fun _ _ _ _ => hlink _
  have hbeside : Sync.Beside pairedHost.disk ⟨"/w"⟩ ⟨"/out"⟩ := by
    intro base base' hbase hbase'
    rw [(reaches_iff_landing hlink).1 hbase, (reaches_iff_landing hlink).1 hbase']
    decide
  have hreport : (install (.trial []) ⟨"/w"⟩ ⟨"/out"⟩).answer pairedHost =
      ⟨[⟨"/out/a.mrb"⟩], [⟨"/out/a.mrb"⟩], []⟩ := by
    rw [install, Act.answer_bind, Act.answer_disk, Act.after_disk, leaves_pairedHost]
    decide +kernel
  have houtside : Outside pairedHost.disk ⟨"/w"⟩ ⟨"/out"⟩ :=
    outside_of_beside hd (hfree _) (hfree _) hbeside
  obtain ⟨hcompiled, -, -⟩ :=
    install_accounts Compiler.trial_compiles hd (hfree ⟨"/w"⟩) houtside
  rw [hreport] at hcompiled ⊢
  refine ⟨by simp, by simp, ?_⟩
  obtain ⟨source, bytes, made, hsource, hscript, -, hread, hmade, hholds⟩ :=
    hcompiled ⟨"/out/a.mrb"⟩ (by simp)
  obtain rfl : source = ⟨"/w/a.rb"⟩ := by
    rw [leaves_pairedHost] at hsource
    have hboth : source = ⟨"/w/a.mrb"⟩ ∨ source = ⟨"/w/a.rb"⟩ := by simpa using hsource
    refine hboth.resolve_left ?_
    rintro rfl
    exact absurd hscript (by decide)
  obtain rfl : "x".toUTF8 = bytes := Except.ok.inj (Eq.trans rfl hread)
  obtain rfl := Option.some.inj hmade
  exact hholds (Or.inr (hfree _))

end GemCourier.Bytecode
