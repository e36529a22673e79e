/-
GemCourier/Proofs/Remote/Mirror.lean

What a download leaves on the disk.

A deed of a download serves one visit: it makes a directory on the way to a file
that was fetched, or it writes this file, which is then saved.  In a tidy source
no other visit lies at the place of a saved file, and with no links below the
root different places are different locations.  So a saved file goes on reading
what was fetched until the end, however deep the visits are that come after it,
and every other file is left as it stood.

Main results: `Carries.exists_deeds`, `Carries.readFile`, `download_mirrors`.
-/
import GemCourier.Proofs.Remote.Carrying

namespace GemCourier.Remote

open Directory (deliver)

/-- What is done to a disk for the sake of a visit: directories are made on the way to its file,
and the file is written if it is to be saved. -/
def Visit.Serves (v : Visit) : Deed → Prop
  | .made p => p.components <+: v.localPath.components.dropLast
  | .wrote p _ => p = v.localPath ∧ v.fate = .saved

namespace Source

variable {source : Source} {folder : String} {place root : Path} {d d' : Disk}
  {entries all : List Entry} {visits : List Visit}

/-! ### Files behind a directory -/

/-- `source.Offers folder names`: what is listed leads from a directory by plain names to a
file. -/
inductive Offers (source : Source) : String → List String → Prop
  | file {folder entries e} : (source.list folder).outcome = .ok entries → e ∈ entries →
      isPlainName e.name = true → e.kind = .file → Offers source folder [e.name]
  | through {folder entries e names} : (source.list folder).outcome = .ok entries → e ∈ entries →
      isPlainName e.name = true → e.kind = .directory → Offers source (join folder e.name) names →
      Offers source folder (e.name :: names)

/-- A round visits no files but those that are offered, and leads them to the same names below
its place. -/
theorem Round.offers (hround : source.Round folder place entries visits)
    (hlisted : (source.list folder).outcome = .ok all) (hentries : entries ⊆ all) :
    ∀ v ∈ visits, v.IsFile → ∃ names, source.Offers folder names ∧
      v.remotePath = descend folder names ∧ v.localPath = place.descend names := by
  intro v hv
  refine hround.forall_visits (P := fun folder place entries v =>
    ∀ {all}, (source.list folder).outcome = .ok all → entries ⊆ all → v.IsFile →
      ∃ names, source.Offers folder names ∧ v.remotePath = descend folder names ∧
        v.localPath = place.descend names) ?here ?later ?outer v hv hlisted hentries
  case here =>
    intro folder place e rest fate all hlisted hentries hfile
    refine ⟨[e.name], .file hlisted (hentries (by simp)) hfile.1 hfile.2, ?_, ?_⟩
    · rw [Visit.remotePath, descend_cons, descend, List.foldl_nil]
    · rw [Visit.localPath, Path.descend_cons, Path.descend, List.foldl_nil]
  case later =>
    intro folder place e rest v hv all hlisted hentries
    exact hv hlisted (List.subset_of_cons_subset hentries)
  case outer =>
    intro folder place e inner rest v hname hkind hinner hv all hlisted hentries hfile
    obtain ⟨names, hoffers, hremote, hlocal⟩ := hv hinner (List.Subset.refl _) hfile
    refine ⟨e.name :: names, .through hlisted (hentries (by simp)) hname hkind hoffers, ?_, ?_⟩
    · rw [hremote, descend_cons]
    · rw [hlocal, Path.descend_cons]

/-! ### Deeds that serve a visit -/

/-- One file is left by deeds that serve its visit, and by none if it was not fetched. -/
theorem exists_deeds_leaves {v : Visit}
    (hfate : v.fate = source.alone v.remotePath v.localPath d) :
    ∃ deeds, d.Does deeds (source.leaves v.remotePath v.localPath d) ∧
      ∀ deed ∈ deeds, (∃ bytes, (source.fetch v.remotePath).outcome = .ok bytes) ∧
        v.Serves deed := by
  rw [leaves]
  cases hfetch : (source.fetch v.remotePath).outcome with
  | error cause => exact ⟨[], .nothing d, by simp⟩
  | ok bytes =>
    obtain ⟨deeds, hdeeds, hserve⟩ := Directory.exists_deeds_deliver v.localPath bytes ⟨d, []⟩
    refine ⟨deeds, hdeeds, fun deed hdeed => ⟨⟨bytes, rfl⟩, ?_⟩⟩
    rcases hserve deed hdeed with ⟨q, rfl, hq⟩ | ⟨rfl, hok⟩
    · exact hq
    · refine ⟨rfl, ?_⟩
      rw [hfate, alone, hfetch]
      dsimp only
      rw [hok]
      rfl

/-- All that visits do to the disk serves one of them whose file was fetched. -/
theorem Carries.exists_deeds (h : source.Carries d visits d') :
    ∃ deeds, d.Does deeds d' ∧ ∀ deed ∈ deeds, ∃ v ∈ visits, v.IsFile ∧
      (∃ bytes, (source.fetch v.remotePath).outcome = .ok bytes) ∧ v.Serves deed := by
  induction h with
  | done d => exact ⟨[], .nothing d, by simp⟩
  | other _ _ _ ih =>
    obtain ⟨deeds, hdeeds, hserve⟩ := ih
    refine ⟨deeds, hdeeds, fun deed hdeed => ?_⟩
    obtain ⟨w, hw, hrest⟩ := hserve deed hdeed
    exact ⟨w, by simp [hw], hrest⟩
  | @file v _ _ _ hfile hfate _ ih =>
    obtain ⟨deeds, hdeeds, hserve⟩ := exists_deeds_leaves hfate
    obtain ⟨more, hmore, hserve'⟩ := ih
    refine ⟨deeds ++ more, hdeeds.append hmore, fun deed hdeed => ?_⟩
    rcases List.mem_append.1 hdeed with hdeed | hdeed
    · obtain ⟨hfetched, hserves⟩ := hserve deed hdeed
      exact ⟨v, by simp, hfile, hfetched, hserves⟩
    · obtain ⟨w, hw, hrest⟩ := hserve' deed hdeed
      exact ⟨w, by simp [hw], hrest⟩

/-- A file that is saved was fetched, and reads as it was fetched. -/
theorem readFile_of_alone {remotePath : String} {localPath : Path}
    (hsaved : source.alone remotePath localPath d = .saved) :
    ∃ bytes, (source.fetch remotePath).outcome = .ok bytes ∧
      (source.leaves remotePath localPath d).readFile localPath = .ok bytes := by
  rw [alone] at hsaved
  rw [leaves]
  cases hfetch : (source.fetch remotePath).outcome with
  | error cause =>
    rw [hfetch] at hsaved
    cases hsaved
  | ok bytes =>
    rw [hfetch] at hsaved
    refine ⟨bytes, rfl, Directory.readFile_of_deliver ?_⟩
    cases hanswer : (deliver localPath bytes).answer ⟨d, []⟩ with
    | ok _ => rfl
    | error cause =>
      dsimp only at hsaved
      rw [hanswer] at hsaved
      cases cause <;> cases hsaved

/-- What was saved once reads the same when all visits are done, if none of them is to a place
below another one's file. -/
theorem Carries.readFile (h : source.Carries d visits d') (hfree : d.LinkFreeBelow root)
    (hapart : visits.Pairwise Visit.Apart)
    (hbelow : ∀ v ∈ visits, v.IsFile → ∃ names : List String,
      v.localPath.components = root.components ++ names.map .name) :
    ∀ v ∈ visits, v.fate = .saved → ∃ bytes, (source.fetch v.remotePath).outcome = .ok bytes ∧
      d'.readFile v.localPath = .ok bytes := by
  induction h with
  | done => simp
  | other _ hfate _ ih =>
    intro v hv hsaved
    rcases List.mem_cons.1 hv with rfl | hv
    · exact absurd hsaved hfate
    · exact ih hfree (List.pairwise_cons.1 hapart).2 (fun w hw => hbelow w (by simp [hw])) v hv
        hsaved
  | @file first d rest d' hfile hfate hrest ih =>
    obtain ⟨hfirst, hpairs⟩ := List.pairwise_cons.1 hapart
    obtain ⟨_, hdeeds, -⟩ := exists_deeds_leaves hfate
    have hfree' := hfree.grows hdeeds.grows
    intro v hv hsaved
    rcases List.mem_cons.1 hv with rfl | hv
    · rw [hfate] at hsaved
      obtain ⟨bytes, hfetch, hread⟩ := readFile_of_alone hsaved
      refine ⟨bytes, hfetch, ?_⟩
      -- what is written later lies beside it
      obtain ⟨later, hlater, hserve⟩ := hrest.exists_deeds
      refine hlater.readFile_eq hread fun q b hq loc hqloc hloc => ?_
      obtain ⟨w, hw, hwfile, -, rfl, -⟩ := hserve _ hq
      obtain ⟨names, hnames⟩ := hbelow v (by simp) hfile
      obtain ⟨others, hothers⟩ := hbelow w (by simp [hw]) hwfile
      obtain rfl := Disk.names_unique hfree' hothers hnames hqloc hloc
      refine ((hfirst w hw) hfile.1 hwfile.1).1 ?_
      rw [hnames, hothers]
    · exact ih hfree' hpairs (fun w hw => hbelow w (by simp [hw])) v hv hsaved

/-- In a round of a tidy source, all that was saved reads as it was fetched. -/
theorem Round.readFile (htidy : source.Tidy) (hround : source.Round folder root entries visits)
    (horder : Orderly entries) (hcarries : source.Carries d visits d')
    (hfree : d.LinkFreeBelow root) :
    ∀ v ∈ visits, v.fate = .saved → ∃ bytes, (source.fetch v.remotePath).outcome = .ok bytes ∧
      d'.readFile v.localPath = .ok bytes := by
  refine hcarries.readFile hfree (hround.pairwise_apart htidy horder) fun v hv hfile => ?_
  obtain ⟨_, _, _, -, hnames⟩ := (hround.behind htidy horder v hv).exists_names hfile.1
  exact ⟨_, hnames⟩

/-! ### The mirror -/

/-- A download that is not given up leaves every saved path as a file with the bytes that were
fetched for it, and every other file as it was.  Nothing is removed, and a directory is added
only on the way to a file that was fetched. -/
theorem download_mirrors (source : Source) (folder : String) (ends : source.Ends folder)
    (root : Path) (h : Host) (htidy : source.Tidy) (hfree : h.disk.LinkFreeBelow root)
    (report : FetchReport) (hok : (source.download folder ends root).answer h = .ok report) :
    let after := ((source.download folder ends root).after h).disk
    (∀ p ∈ report.saved, ∃ names bytes, source.Offers folder names ∧ p = root.descend names ∧
        (source.fetch (descend folder names)).outcome = .ok bytes ∧
        after.readFile p = .ok bytes) ∧
      (∀ loc, (∀ p ∈ report.saved, ¬ h.disk.Reaches p loc) → ∀ bytes t mode,
        (after.node? loc = some (.file bytes t mode) ↔
          h.disk.node? loc = some (.file bytes t mode))) ∧
      h.disk.Grows after ∧
      ∀ loc, h.disk.node? loc = none → after.node? loc = some .folder →
        ∃ names bytes p, source.Offers folder names ∧
          (source.fetch (descend folder names)).outcome = .ok bytes ∧
          p.components <+: (root.descend names).components.dropLast ∧ h.disk.Reaches p loc := by
  intro after
  obtain ⟨entries, visits, hlisted, htour, hcarries, rfl, -⟩ := download_carried hok
  obtain ⟨deeds, hdeeds, hserve⟩ := hcarries.exists_deeds
  refine ⟨fun p hp => ?_, fun loc hunsaved bytes t mode => ?_, hdeeds.grows,
    fun loc hnone hfolder => ?_⟩
  · obtain ⟨v, hv, hsaved⟩ := List.mem_filterMap.1 hp
    obtain ⟨hfate, hfile, rfl⟩ := hcarries.saved hv hsaved
    obtain ⟨names, hoffers, hremote, hlocal⟩ :=
      htour.round.offers hlisted (List.Subset.refl _) v hv hfile
    obtain ⟨bytes, hfetch, hread⟩ :=
      htour.round.readFile htidy (htidy _ _ hlisted) hcarries hfree v hv hfate
    exact ⟨names, bytes, hoffers, hlocal, hremote ▸ hfetch, hread⟩
  · refine hdeeds.file_iff fun p b hwrote => ?_
    obtain ⟨v, hv, hfile, -, rfl, hfate⟩ := hserve _ hwrote
    refine hunsaved _ (List.mem_filterMap.2 ⟨v, hv, ?_⟩)
    rw [Visit.saved?, hfate]
  · obtain ⟨p, hmade, hreaches⟩ := hdeeds.exists_made hnone hfolder
    obtain ⟨v, hv, hfile, ⟨bytes, hfetch⟩, hp⟩ := hserve _ hmade
    obtain ⟨names, hoffers, hremote, hlocal⟩ :=
      htour.round.offers hlisted (List.Subset.refl _) v hv hfile
    exact ⟨names, bytes, p, hoffers, hremote ▸ hfetch, hlocal ▸ hp, hreaches⟩

end Source

/-- A tree with a file, and with a directory that holds another one. -/
def nestedTree : StoredTree where
  listings := [("t", .held [(.file, "a"), (.directory, "d")]), ("t/d", .held [(.file, "b")])]
  files := [("t/a", .held "1".toUTF8), ("t/d/b", .held "2".toUTF8)]

theorem tidy_nestedTree : nestedTree.toTree.toSource.Tidy := by
  refine StoredTree.tidy fun listing hlisting held hheld => ?_
  simp only [nestedTree, List.mem_cons, List.not_mem_nil, or_false] at hlisting
  rcases hlisting with rfl | rfl <;> cases hheld <;> decide +kernel

theorem listed_nestedTree : (nestedTree.toTree.list "t").outcome =
    .ok [.below "t" "a" .file, .below "t" "d" .directory] := rfl

theorem offers_nestedTree {names : List String} (h : nestedTree.toTree.toSource.Offers "t" names) :
    names = ["a"] ∨ names = ["d", "b"] := by
  have hinner : (nestedTree.toTree.list "t/d").outcome = .ok [.below "t/d" "b" .file] := rfl
  cases h with
  | file hlists he _ hkind =>
    obtain rfl := Except.ok.inj (listed_nestedTree.symm.trans hlists)
    rcases List.mem_pair.1 he with rfl | rfl
    · exact Or.inl rfl
    · cases hkind
  | through hlists he _ hkind hoffers =>
    obtain rfl := Except.ok.inj (listed_nestedTree.symm.trans hlists)
    rcases List.mem_pair.1 he with rfl | rfl
    · cases hkind
    · cases hoffers with
      | file hlists he =>
        obtain rfl := Except.ok.inj (hinner.symm.trans hlists)
        obtain rfl := List.mem_singleton.1 he
        exact Or.inr rfl
      | through hlists he _ hkind =>
        obtain rfl := Except.ok.inj (hinner.symm.trans hlists)
        obtain rfl := List.mem_singleton.1 he
        cases hkind

/-- A disk with an older file at the place of the first one, and with another file beside it. -/
def olderDisk : Disk where
  nodes := [(["h"], .folder), (["h", "m"], .folder), (["h", "m", "a"], .file "0".toUTF8 5 420),
    (["h", "m", "c"], .file "3".toUTF8 6 420)]
  start := ["h"]
  clock := 9

/-- The older file is replaced, what else is saved was offered, and the file beside stays. -/
theorem download_mirrors_nestedTree :
    let step := nestedTree.toTree.toSource.download "t" (nestedTree.toTree.ends "t") ⟨"m"⟩
    let after := (step.after ⟨olderDisk, []⟩).disk
    ∃ report, step.answer ⟨olderDisk, []⟩ = .ok report ∧ ⟨"m/a"⟩ ∈ report.saved ∧
      (∀ p ∈ report.saved, p = ⟨"m/a"⟩ ∧ after.readFile p = .ok "1".toUTF8 ∨
        p = ⟨"m/d/b"⟩ ∧ after.readFile p = .ok "2".toUTF8) ∧
      after.node? ["h", "m", "c"] = some (.file "3".toUTF8 6 420) := by
  intro step after
  have hlink : ∀ loc, olderDisk.link? loc = none := Disk.link?_eq_none (by simp [olderDisk])
  obtain ⟨report, hok⟩ : ∃ report, step.answer ⟨olderDisk, []⟩ = .ok report := by
    obtain ⟨_, -, hstep⟩ := Source.download_listed listed_nestedTree (nestedTree.toTree.ends "t")
      ⟨"m"⟩ ⟨olderDisk, []⟩
    exact ⟨_, congrArg Prod.fst hstep⟩
  obtain ⟨hsaved, hkept, -⟩ := Source.download_mirrors _ _ _ _ _ tidy_nestedTree
    (fun _ _ _ => hlink _) _ hok
  have hall : ∀ p ∈ report.saved, p = ⟨"m/a"⟩ ∧ after.readFile p = .ok "1".toUTF8 ∨
      p = ⟨"m/d/b"⟩ ∧ after.readFile p = .ok "2".toUTF8 := by
    intro p hp
    obtain ⟨names, bytes, hoffers, rfl, hfetch, hread⟩ := hsaved p hp
    rcases offers_nestedTree hoffers with rfl | rfl
    · obtain rfl : "1".toUTF8 = bytes := Except.ok.inj hfetch
      exact Or.inl ⟨rfl, hread⟩
    · obtain rfl : "2".toUTF8 = bytes := Except.ok.inj hfetch
      exact Or.inr ⟨rfl, hread⟩
  refine ⟨report, hok, ?_, hall, ?_⟩
  · -- the first visit is that of the first file, on the disk as it was
    obtain ⟨_, visits, hlisted, htour, hcarries, hreport, -⟩ := Source.download_carried hok
    obtain rfl := Except.ok.inj (listed_nestedTree.symm.trans hlisted)
    rw [hreport]
    have hname : isPlainName (Entry.below "t" "a" .file).name = true := by decide +kernel
    obtain ⟨fate, mid, more, rfl, -, -⟩ := htour.of_file hname rfl
    cases hcarries with
    | other hfile => exact absurd ⟨hname, rfl⟩ hfile
    | file _ hfate _ =>
      obtain rfl : fate = nestedTree.toTree.toSource.alone (join "t" "a")
        ((⟨"m"⟩ : Path).child "a") olderDisk := hfate
      exact List.mem_filterMap.2 ⟨_, List.mem_cons_self, by decide +kernel⟩
  · refine (hkept _ (fun p hp hreaches => ?_) _ _ _).2 rfl
    rcases hall p hp with ⟨rfl, -⟩ | ⟨rfl, -⟩
    · exact absurd ((Disk.leads_names ["m", "a"] fun _ => hlink _).1 hreaches) (by decide)
    · exact absurd ((Disk.leads_names ["m", "d", "b"] fun _ => hlink _).1 hreaches) (by decide)

end GemCourier.Remote
