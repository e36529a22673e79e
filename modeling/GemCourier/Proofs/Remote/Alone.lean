/-
GemCourier/Proofs/Remote/Alone.lean

Each file of a download fares as if it were the only one.

The files of a download share two things: the root, which the first one that is
fetched makes sure of for all of them, and the directories on their ways.
Neither shows in what becomes of a file.  Where the root cannot be made sure of,
every file fails for that, and where it stands the outcome of a delivery depends
on places that no other file of a tidy source has a part in.  So the fate of a
visit can be told from the disk that the whole download found.

Main results: `Carries.alone_eq`, `download_fates`.
-/
import GemCourier.Proofs.Remote.Mirror

namespace GemCourier.Remote

open Directory (deliver ensure ensureParent Below Site outcome)

/-- The visit is to a place below the root, behind some names. -/
def Visit.Below (root : Path) (names : List String) (v : Visit) : Prop :=
  Directory.Below root names v.entry.name v.localPath

/-- What is asked for behind some entries has its local path below the place, by the names that
its remote path has behind the directory. -/
theorem Visit.Behind.exists_below {v : Visit} {folder : String} {place : Path}
    {entries : List Entry} (h : v.Behind folder place entries) (hplain : v.Plain) :
    ∃ names, v.Below place names ∧
      parts v.remotePath = parts folder ++ (names ++ [v.entry.name]) := by
  obtain ⟨hslash, front, hlies, -⟩ := h
  have hname := isEntryName_of_isPlainName hplain hslash
  have hnames := hlies.isEntryName hname
  refine ⟨front, ⟨?_, Path.neat_child hname⟩, ?_⟩
  · rw [hlies.localPath, Path.components_descend hnames]
    simp
  · rw [hlies.remotePath, parts_descend folder hnames]

namespace Source

variable {source : Source} {folder : String} {root p : Path} {d d' mid : Disk}
  {visits ws : List Visit} {v : Visit} {names : List String} {n : String} {base : Location}
  {remotePath : String}

/-! ### A root that was made sure of -/

/-- Whether the root was made sure of before shows neither in what becomes of a file nor in what
is left. -/
theorem alone_ensured (source : Source) (remotePath : String) (d : Disk)
    (hp : Below root names n p) :
    source.alone remotePath p ((ensure root).after ⟨d, []⟩).disk = source.alone remotePath p d ∧
      ((∃ bytes, (source.fetch remotePath).outcome = .ok bytes) →
        source.leaves remotePath p ((ensure root).after ⟨d, []⟩).disk =
          source.leaves remotePath p d) := by
  have hdelivered : ∀ bytes,
      (deliver p bytes).answer ⟨((ensure root).after ⟨d, []⟩).disk, []⟩ =
          (deliver p bytes).answer ⟨d, []⟩ ∧
        ((deliver p bytes).after ⟨((ensure root).after ⟨d, []⟩).disk, []⟩).disk =
          ((deliver p bytes).after ⟨d, []⟩).disk := by
    intro bytes
    obtain ⟨hanswer, hdisk⟩ := Directory.deliver_ensured bytes hp ⟨d, []⟩
    obtain ⟨hanswer', hdisk'⟩ := Directory.deliver_fromDisk p bytes
      ⟨((ensure root).after ⟨d, []⟩).disk, []⟩ ((ensure root).after ⟨d, []⟩) rfl
    exact ⟨hanswer'.trans hanswer, hdisk'.trans hdisk⟩
  rw [alone, alone, leaves, leaves]
  cases (source.fetch remotePath).outcome with
  | error cause => exact ⟨rfl, by rintro ⟨_, ⟨⟩⟩⟩
  | ok bytes =>
    obtain ⟨hanswer, hdisk⟩ := hdelivered bytes
    refine ⟨?_, fun _ => hdisk⟩
    dsimp only
    rw [hanswer]

/-- Unless no file was fetched, visits go as if the root had been made sure of at first. -/
theorem Carries.ensured (h : source.Carries d visits d')
    (hbelow : ∀ v ∈ visits, v.IsFile → ∃ names, v.Below root names) :
    d' = d ∨ source.Carries ((ensure root).after ⟨d, []⟩).disk visits d' := by
  induction h with
  | done d => exact Or.inl rfl
  | other hfile hfate _ ih =>
    exact (ih fun w hw => hbelow w (by simp [hw])).imp id (.other hfile hfate)
  | @file v d rest d' hfile hfate hrest ih =>
    obtain ⟨names, hv⟩ := hbelow v (by simp) hfile
    obtain ⟨halone, hleaves⟩ := alone_ensured source v.remotePath d hv
    cases hfetch : (source.fetch v.remotePath).outcome with
    | error cause =>
      -- a file that is not fetched leaves the disk to the others
      have hleft : ∀ d, source.leaves v.remotePath v.localPath d = d := by
        intro d
        rw [leaves, hfetch]
      rw [hleft] at ih
      refine (ih fun w hw => hbelow w (by simp [hw])).imp id fun h => ?_
      refine .file hfile (hfate.trans halone.symm) ?_
      rwa [hleft]
    | ok bytes =>
      refine Or.inr (.file hfile (hfate.trans halone.symm) ?_)
      rwa [hleaves ⟨bytes, hfetch⟩]

/-- Where the root cannot be made sure of, nothing changes any more. -/
theorem Carries.eq_of_blocked {e : DirectoryError} (h : source.Carries d visits d')
    (hblocked : (ensure root).answer ⟨d, []⟩ = .error e)
    (hleft : ((ensure root).after ⟨d, []⟩).disk = d)
    (hbelow : ∀ v ∈ visits, v.IsFile → ∃ names, v.Below root names) : d' = d := by
  induction h with
  | done d => rfl
  | other _ _ _ ih => exact ih hblocked hleft fun w hw => hbelow w (by simp [hw])
  | @file v d rest d' hfile _ _ ih =>
    obtain ⟨names, hv⟩ := hbelow v (by simp) hfile
    have hsame : source.leaves v.remotePath v.localPath d = d := by
      rw [leaves]
      cases (source.fetch v.remotePath).outcome with
      | error cause => rfl
      | ok bytes =>
        obtain ⟨hanswer, hafter⟩ := Directory.ensureParent_of_error hv hblocked
        dsimp only
        rw [(Directory.deliver_blocked bytes hanswer).2, hafter, hleft]
    rw [hsame] at ih
    exact ih hblocked hleft fun w hw => hbelow w (by simp [hw])

/-- Where the path of the root is read from nowhere, nothing changes at all. -/
theorem Carries.eq_of_homeless (h : source.Carries d visits d')
    (horigin : d.node? (d.originOf root.components) ≠ some .folder)
    (hbelow : ∀ v ∈ visits, v.IsFile → ∃ names, v.Below root names) : d' = d := by
  obtain ⟨deeds, hdeeds, hserve⟩ := h.exists_deeds
  refine hdeeds.eq_of_unreadable fun deed hdeed => ?_
  obtain ⟨v, hv, hfile, -, hserves⟩ := hserve deed hdeed
  obtain ⟨names, hbelow⟩ := hbelow v hv hfile
  have hpart : deed.path.components <+: v.localPath.components := by
    cases deed with
    | made q => exact hserves.trans (List.dropLast_prefix _)
    | wrote q bytes =>
      obtain ⟨rfl, -⟩ := hserves
      exact List.prefix_refl _
  rw [hbelow.components_eq] at hpart
  exact Disk.not_readable_of_prefix hpart horigin

/-! ### On a site -/

/-- On a site visits to other places do not matter to a file. -/
theorem Carries.outcome_eq (h : source.Carries d ws mid) (hsite : Site d root base)
    (hws : ∀ w ∈ ws, w.IsFile → ∃ others, w.Below root others ∧
      ¬ others ++ [w.entry.name] <+: names ++ [n] ∧ ¬ names ++ [n] <+: others ++ [w.entry.name]) :
    outcome mid root base names n p = outcome d root base names n p ∧ Site mid root base := by
  induction h with
  | done d => exact ⟨rfl, hsite⟩
  | other _ _ _ ih => exact ih hsite fun w hw => hws w (by simp [hw])
  | @file w d rest d' hfile hfate _ ih =>
    obtain ⟨others, hw, hnot, hnot'⟩ := hws w (by simp) hfile
    obtain ⟨_, hdeeds, -⟩ := exists_deeds_leaves hfate
    have hone : outcome (source.leaves w.remotePath w.localPath d) root base names n p =
        outcome d root base names n p := by
      rw [leaves]
      cases (source.fetch w.remotePath).outcome with
      | error cause => rfl
      | ok bytes => exact Directory.outcome_deliver (h := ⟨d, []⟩) hsite hw hnot hnot'
    rw [← hone]
    exact ih (hsite.grows hdeeds.grows) fun w hw => hws w (by simp [hw])

/-- On a site the outcome decides what becomes of a file. -/
theorem alone_site (hsite : Site d root base) (hp : Below root names n p)
    (hsame : outcome d' root base names n p = outcome d root base names n p)
    (hsite' : Site d' root base) :
    source.alone remotePath p d' = source.alone remotePath p d := by
  rw [alone, alone]
  cases (source.fetch remotePath).outcome with
  | error cause => rfl
  | ok bytes =>
    dsimp only
    rw [Directory.answer_deliver (h := ⟨d', []⟩) hsite' hp,
      Directory.answer_deliver (h := ⟨d, []⟩) hsite hp, hsame]

/-! ### Visits on their own -/

/-- Visits to other places do not matter to what becomes of a file. -/
theorem Carries.alone_eq (h : source.Carries d ws mid) (hfree : d.LinkFreeBelow root)
    (hv : v.Below root names)
    (hws : ∀ w ∈ ws, w.IsFile → ∃ others, w.Below root others ∧
      ¬ others ++ [w.entry.name] <+: names ++ [v.entry.name] ∧
      ¬ names ++ [v.entry.name] <+: others ++ [w.entry.name]) :
    source.alone v.remotePath v.localPath mid = source.alone v.remotePath v.localPath d := by
  have hbelow : ∀ w ∈ ws, w.IsFile → ∃ others, w.Below root others := by
    intro w hw hfile
    obtain ⟨others, hother, -⟩ := hws w hw hfile
    exact ⟨others, hother⟩
  rcases h.ensured hbelow with rfl | h'
  · rfl
  rw [← (alone_ensured source v.remotePath d hv).1]
  have hgrown : d.Grows ((ensure root).after ⟨d, []⟩).disk :=
    Directory.grows_ensureFrom _ _ _ ⟨d, []⟩
  cases hroot : (ensure root).answer ⟨d, []⟩ with
  | error e =>
    obtain ⟨hagain, hleft⟩ : (ensure root).answer ⟨((ensure root).after ⟨d, []⟩).disk, []⟩ =
        .error e ∧ _ := Directory.ensureFrom_error_again hroot rfl
    rw [h'.eq_of_blocked hagain hleft hbelow]
  | ok k =>
    by_cases horigin : ((ensure root).after ⟨d, []⟩).disk.node?
        (((ensure root).after ⟨d, []⟩).disk.originOf root.components) = some .folder
    · obtain ⟨base, hsite⟩ := Directory.exists_site (Directory.stands_of_ensureFrom hroot)
        (hfree.grows hgrown) horigin
      obtain ⟨hsame, hsite'⟩ := h'.outcome_eq hsite hws
      exact alone_site hsite hv hsame hsite'
    · rw [h'.eq_of_homeless horigin hbelow]

/-- In a download each file fares as it does alone on the disk that the download found. -/
theorem download_fates {report : FetchReport} {ends : source.Ends folder} {h : Host}
    (htidy : source.Tidy) (hfree : h.disk.LinkFreeBelow root)
    (hok : (source.download folder ends root).answer h = .ok report) :
    ∃ entries visits, (source.list folder).outcome = .ok entries ∧
      source.Round folder root entries visits ∧
      source.Carries h.disk visits ((source.download folder ends root).after h).disk ∧
      (∀ v ∈ visits, v.IsFile → v.fate = source.alone v.remotePath v.localPath h.disk) ∧
      report = reportOf visits ∧
      ((source.download folder ends root).after h).questions =
        h.questions ++ .list folder :: visits.filterMap Visit.question? := by
  obtain ⟨entries, visits, hlisted, htour, hcarries, hreport, hquestions⟩ := download_carried hok
  have horder := htidy _ _ hlisted
  have hapart := htour.round.pairwise_apart htidy horder
  have hbehind := htour.round.behind htidy horder
  refine ⟨entries, visits, hlisted, htour.round, hcarries, fun v hv hfile => ?_, hreport,
    hquestions⟩
  obtain ⟨ws, rest, rfl⟩ := List.append_of_mem hv
  obtain ⟨mid, hbefore, hrest⟩ := hcarries.split
  have hfate : v.fate = source.alone v.remotePath v.localPath mid := by
    cases hrest with
    | other hnofile => exact absurd hfile hnofile
    | file _ hfate _ => exact hfate
  obtain ⟨names, hbelow, -⟩ := (hbehind v (by simp)).exists_below hfile.1
  rw [hfate]
  refine hbefore.alone_eq hfree hbelow fun w hw hwfile => ?_
  obtain ⟨others, hother, -⟩ := (hbehind w (by simp [hw])).exists_below hwfile.1
  obtain ⟨hnot, hnot'⟩ := (List.pairwise_append.1 hapart).2.2 w hw v (by simp) hwfile.1 hfile.1
  -- what holds of the names holds of the paths
  have hpaths : ∀ {names others : List String}, names <+: others →
      root.components ++ names.map Component.name <+:
        root.components ++ others.map Component.name := by
    rintro names _ ⟨more, rfl⟩
    exact ⟨more.map .name, by simp⟩
  rw [hother.components_eq, hbelow.components_eq] at hnot hnot'
  exact ⟨others, hother, fun h => hnot' hwfile.2 (hpaths h), fun h => hnot (hpaths h)⟩

end Source

end GemCourier.Remote
