/-
GemCourier/Proofs/Remote/Siblings.lean

Which entries of a listing get in each other's way.

A download of some entries writes only behind the cores of their names, however
deep the listing is met and whatever is listed below.  The entries are
downloaded one after the other, so what becomes of the files behind a core that
no other entry spells is settled in the one turn of its entry.  Entries of one
core, though their names differ, write to the same places.

Main results: `Round.behindCore`, `sameFiles_of_writesBehind`,
`after_downloadEntries_append`, `siblings_apart`.
-/
import GemCourier.Proofs.Remote.Levels
import GemCourier.Proofs.Remote.Mirror
import GemCourier.Proofs.Remote.Spelling

namespace GemCourier.Remote

/-! ### Remote paths -/

/-- The remote path ends as the name is written, unless a slash stands at its end. -/
theorem Spells.ends_join_iff {name core : String} (h : Spells name core) (folder : String) :
    (∃ before, join folder name = before ++ name) ↔ (Path.mk name).endsInSlash = false := by
  constructor
  · rintro ⟨before, hbefore⟩
    refine Bool.eq_false_iff.2 fun hslash => (bare_join folder name).last ?_
    rw [hbefore, String.toList_append, List.getLast?_append, beq_iff_eq.1 hslash, Option.some_or]
  · intro hslash
    have hbare : Bare name := by
      refine ⟨fun hfirst => ?_, fun hlast => ?_⟩
      · exact absurd h.isAbsolute (by simp [Path.isAbsolute, hfirst])
      · exact absurd hslash (by simp [Path.endsInSlash, hlast])
    have hname : trimSlashes name = name := trimSlashes_of_bare hbare
    by_cases hfolder : trimSlashes folder = ""
    · exact ⟨"", by rw [join_of_left hfolder, hname, String.empty_append]⟩
    · refine ⟨trimSlashes folder ++ "/", ?_⟩
      rw [join_of_both hfolder (by rw [hname]; exact h.ne_empty), hname]

/-! ### Writing behind cores -/

/-- The path goes on from a place by the core of one of the entries, and then by any names. -/
def BehindCore (place : Path) (entries : List Entry) (p : Path) : Prop :=
  ∃ e ∈ entries, ∃ core, ∃ more : List String, Spells e.name core ∧
    p.components = place.components ++ (core :: more).map .name

namespace BehindCore

variable {place p : Path} {e : Entry} {rest inner : List Entry}

/-- A plain name leads behind its own core. -/
theorem of_isPlainName (h : isPlainName e.name = true) :
    BehindCore place (e :: rest) (place.child e.name) := by
  obtain ⟨core, hcore⟩ := isPlainName_iff.1 h
  exact ⟨e, by simp, core, [], hcore, hcore.components_child⟩

theorem later (h : BehindCore place rest p) : BehindCore place (e :: rest) p := by
  obtain ⟨e', he', hcore⟩ := h
  exact ⟨e', by simp [he'], hcore⟩

/-- What lies below a directory lies behind the core of its name, however the names go on. -/
theorem outer (hname : isPlainName e.name = true) (h : BehindCore (place.child e.name) inner p) :
    BehindCore place (e :: rest) p := by
  obtain ⟨core, hcore⟩ := isPlainName_iff.1 hname
  obtain ⟨-, -, next, more, -, hp⟩ := h
  refine ⟨e, by simp, core, next :: more, hcore, ?_⟩
  rw [hp, hcore.components_child, List.append_assoc]
  rfl

end BehindCore

/-- The same files stand at and below a location. -/
def SameFiles (base : Location) (d d' : Disk) : Prop :=
  ∀ names bytes t mode, d'.node? (base ++ names) = some (.file bytes t mode) ↔
    d.node? (base ++ names) = some (.file bytes t mode)

/-- A file is written behind the core of one of the entries only. -/
def WritesBehind (place : Path) (entries : List Entry) : Deed → Prop
  | .made _ => True
  | .wrote p _ => BehindCore place entries p

namespace Source

variable {source : Source} {folder : String} {place : Path} {entries front back : List Entry}
  {visits : List Visit}

/-- The entries are listed in a directory. -/
abbrev Listed (source : Source) (folder : String) (entries : List Entry) : Prop :=
  ∀ e ∈ entries, ∃ all, (source.list folder).outcome = .ok all ∧ e ∈ all

theorem Listed.of_subset (h : source.Listed folder entries) (hsub : front ⊆ entries) :
    source.Listed folder front :=
  fun e he => h e (hsub he)

/-- What is asked for in a round lies behind the core of an entry that the round goes through. -/
theorem Round.behindCore (hround : source.Round folder place entries visits) :
    ∀ v ∈ visits, v.Plain → BehindCore place entries v.localPath := by
  refine hround.forall_visits (P := fun _ place entries v =>
    v.Plain → BehindCore place entries v.localPath) ?here ?later ?outer
  case here =>
    intro folder place e rest fate hplain
    exact .of_isPlainName hplain
  case later =>
    intro folder place e rest v hv hplain
    exact (hv hplain).later
  case outer =>
    intro folder place e inner rest v hname _ _ hv hplain
    exact (hv hplain).outer hname

/-- Downloading entries writes behind their cores. -/
theorem downloadEntries_writesBehind (folder : String) (ends : source.Ends folder) (place : Path)
    (entries : List Entry) (listed : source.Listed folder entries) :
    (source.downloadEntries folder ends place entries listed).Does
      (WritesBehind place entries) := by
  intro h
  obtain ⟨visits, htour, hcarries, -⟩ :=
    carried_downloadEntries folder ends place entries listed h
  obtain ⟨deeds, hdeeds, hserve⟩ := hcarries.exists_deeds
  refine ⟨deeds, hdeeds, fun deed hdeed => ?_⟩
  obtain ⟨v, hv, hfile, -, hserves⟩ := hserve deed hdeed
  cases deed with
  | made p => trivial
  | wrote p bytes =>
    obtain ⟨rfl, -⟩ := hserves
    exact htour.round.behindCore v hv hfile.1

/-- Deeds that write behind the cores of entries leave the files at and behind another core. -/
theorem sameFiles_of_writesBehind {d d' : Disk} {deeds : List Deed} {name core : String}
    {base : Location} (hdeeds : d.Does deeds d')
    (hwrites : ∀ deed ∈ deeds, WritesBehind place entries deed) (hfree : d.LinkFreeBelow place)
    (hcore : Spells name core) (hothers : ∀ e ∈ entries, ¬ Spells e.name core)
    (hbase : d.Reaches (place.child name) base) : SameFiles base d d' := by
  intro names bytes t mode
  refine hdeeds.file_iff fun p b hwrote hreaches => ?_
  obtain ⟨e, he, other, more, hother, hp⟩ := hwrites _ hwrote
  have hchild : (place.child name).components = place.components ++ [core].map .name :=
    hcore.components_child
  obtain ⟨origin, horigin, rfl⟩ := (Disk.reaches_below hfree hchild).1 hbase
  obtain ⟨origin', horigin', hloc⟩ := (Disk.reaches_below hfree hp).1 hreaches
  -- both lie below where the directory leads, so they go on from there by the same names
  obtain rfl := horigin.unique horigin'
  rw [List.append_assoc, List.append_cancel_left_eq] at hloc
  obtain rfl : core = other := (List.cons.inj hloc).1
  exact hothers e he hother

/-! ### One turn after the other -/

/-- Downloading some entries and then others leaves the host as downloading all of them does. -/
theorem after_downloadEntries_append (ends : source.Ends folder) (place : Path)
    (hfront : source.Listed folder front) (hback : source.Listed folder back)
    (hall : source.Listed folder (front ++ back)) (h : Host) :
    (source.downloadEntries folder ends place (front ++ back) hall).after h =
      (source.downloadEntries folder ends place back hback).after
        ((source.downloadEntries folder ends place front hfront).after h) := by
  induction front generalizing h with
  | nil =>
    rw [downloadEntries.eq_1 source folder ends place hfront]
    rfl
  | cons e rest ih =>
    have hrest : source.Listed folder rest := hfront.of_subset (List.subset_cons_self e rest)
    have hmore : source.Listed folder (rest ++ back) :=
      hall.of_subset (List.subset_cons_self e (rest ++ back))
    simp only [List.cons_append]
    rw [downloadEntries, downloadEntries]
    simp only [Act.after_bind, Act.after_pure]
    exact ih hrest hmore _

/-! ### Siblings -/

/-- **Listed names and their places.**  A listed name is plain exactly if it spells the name of
an entry, its core.  It leads to the core in every directory; it is the core exactly if it holds
no slash, and the remote path ends with it exactly if no slash stands at its end.  Two names of
one listing lead to one place exactly if they have one core.  What is written for an entry lies
behind its core, so if no other entry of the listing has this core, and no link stands below the
directory, then the files at and behind it are changed in the turn of this entry alone. -/
theorem siblings_apart (source : Source) (folder : String) (place : Path) :
    (∀ name, isPlainName name = true ↔ ∃ core, Spells name core) ∧
    (∀ name core, Spells name core →
      (place.child name).components = place.components ++ [.name core] ∧
      (place.child name).fileName? = some core ∧
      ('/' ∉ name.toList ↔ name = core) ∧
      ((∃ before, join folder name = before ++ name) ↔ (Path.mk name).endsInSlash = false)) ∧
    (∀ name core other core', Spells name core → Spells other core' →
      ((place.child name).sameAs (place.child other) = true ↔ core = core') ∧
      ∀ d : Disk, d.LinkFreeBelow place → ∀ loc, d.Reaches (place.child name) loc →
        (d.Reaches (place.child other) loc ↔ core = core')) ∧
    ∀ (ends : source.Ends folder) (front back : List Entry) (e : Entry) (core : String)
      (hfront : source.Listed folder front) (hown : source.Listed folder [e])
      (hall : source.Listed folder (front ++ e :: back)) (h : Host), Spells e.name core →
      let before := (source.downloadEntries folder ends place front hfront).after h
      let own := (source.downloadEntries folder ends place [e] hown).after before
      let after := (source.downloadEntries folder ends place (front ++ e :: back) hall).after h
      (∃ deeds, before.disk.Does deeds own.disk ∧ ∀ p bytes, .wrote p bytes ∈ deeds →
        ∃ more : List String, p.components = place.components ++ (core :: more).map .name) ∧
      ((∀ f ∈ front ++ back, ¬ Spells f.name core) → h.disk.LinkFreeBelow place →
        ∀ base, h.disk.Reaches (place.child e.name) base →
          SameFiles base h.disk before.disk ∧ SameFiles base own.disk after.disk) := by
  refine ⟨fun _ => isPlainName_iff, fun name core hcore => ⟨hcore.components_child,
    hcore.fileName?_child, hcore.no_slash_iff, hcore.ends_join_iff folder⟩,
    fun name core other core' hcore hother => ⟨hcore.sameAs_child_iff hother,
      fun d hfree loc => hcore.reaches_child_iff hother hfree⟩, ?_⟩
  intro ends front back e core hfront hown hall h hcore before own after
  have hrest : source.Listed folder ([e] ++ back) :=
    hall.of_subset (List.subset_append_right front (e :: back))
  have hback : source.Listed folder back := hrest.of_subset (List.subset_cons_self e back)
  have hafter : after = (source.downloadEntries folder ends place back hback).after own := by
    show (source.downloadEntries folder ends place (front ++ ([e] ++ back)) hall).after h = _
    rw [after_downloadEntries_append ends place hfront hrest,
      after_downloadEntries_append ends place hown hback]
  obtain ⟨deeds, hdeeds, hwrites⟩ := downloadEntries_writesBehind folder ends place front hfront h
  obtain ⟨deedsOwn, hdeedsOwn, hwritesOwn⟩ :=
    downloadEntries_writesBehind folder ends place [e] hown before
  obtain ⟨deedsBack, hdeedsBack, hwritesBack⟩ :=
    downloadEntries_writesBehind folder ends place back hback own
  refine ⟨⟨deedsOwn, hdeedsOwn, fun p bytes hwrote => ?_⟩,
    fun hothers hfree base hbase => ⟨?_, ?_⟩⟩
  · obtain ⟨f, hf, core', more, hcore', hp⟩ := hwritesOwn _ hwrote
    obtain rfl := List.mem_singleton.1 hf
    obtain rfl := hcore.unique hcore'
    exact ⟨more, hp⟩
  · exact sameFiles_of_writesBehind hdeeds hwrites hfree hcore
      (fun f hf => hothers f (List.mem_append_left back hf)) hbase
  · -- the disk has grown until then, and no link has come
    have hgrows : h.disk.Grows own.disk := hdeeds.grows.trans hdeedsOwn.grows
    rw [hafter]
    exact sameFiles_of_writesBehind hdeedsBack hwritesBack (hfree.grows hgrows) hcore
      (fun f hf => hothers f (List.mem_append_right front hf)) (hgrows.reaches.2 hbase)

end Source

/-- A tree with two spellings of one directory, and a spelling of another one beside them. -/
def respelledTree : StoredTree where
  listings := [("t", .held [(.directory, "a"), (.directory, "a/."), (.directory, "b//")]),
    ("t/a", .held [(.file, "x")]), ("t/a/.", .held [(.file, "x")]), ("t/b", .held [(.file, "x")])]
  files := [("t/a/x", .held "1".toUTF8), ("t/a/./x", .held "2".toUTF8),
    ("t/b/x", .held "3".toUTF8)]

/-- The two spellings of one directory that the tree lists. -/
def respelled : List Entry :=
  [.below "t" "a" .directory, .below "t" "a/." .directory]

/-- The directory that it lists beside them. -/
def besideRespelled : Entry := .below "t" "b//" .directory

theorem listed_respelledTree :
    respelledTree.toTree.toSource.Listed "t" (respelled ++ [besideRespelled]) :=
  fun _ he => ⟨respelled ++ [besideRespelled], rfl, he⟩

/-- A disk with an older file behind the core of the directory beside. -/
def respelledDisk : Disk where
  nodes := [(["h"], .folder), (["h", "m"], .folder), (["h", "m", "b"], .folder),
    (["h", "m", "b", "x"], .file "0".toUTF8 5 420)]
  start := ["h"]
  clock := 9

/-- The two spellings share a place, which is not that of the directory beside them, and the
older file there is left to the turn of that directory. -/
theorem siblings_apart_respelledTree :
    let source := respelledTree.toTree.toSource
    let ends := respelledTree.toTree.ends "t"
    let place : Path := ⟨"m"⟩
    Spells "a/." "a" ∧ Spells "b//" "b" ∧
      (place.child "b//").fileName? = some "b" ∧
      (∃ before, join "t" "a/." = before ++ "a/.") ∧
      (¬ ∃ before, join "t" "b//" = before ++ "b//") ∧
      (place.child "a").sameAs (place.child "a/.") = true ∧
      respelledDisk.Reaches (place.child "a/.") ["h", "m", "a"] ∧
      ¬ respelledDisk.Reaches (place.child "b//") ["h", "m", "a"] ∧
      ∃ hfront hown hall,
        let before := (source.downloadEntries "t" ends place respelled hfront).after
          ⟨respelledDisk, []⟩
        let own := (source.downloadEntries "t" ends place [besideRespelled] hown).after before
        let after := (source.downloadEntries "t" ends place (respelled ++ [besideRespelled])
          hall).after ⟨respelledDisk, []⟩
        before.disk.node? ["h", "m", "b", "x"] = some (.file "0".toUTF8 5 420) ∧
          SameFiles ["h", "m", "b"] own.disk after.disk := by
  intro source ends place
  have hlink : ∀ loc, respelledDisk.link? loc = none :=
    Disk.link?_eq_none (by simp [respelledDisk])
  have hfree : respelledDisk.LinkFreeBelow place := fun _ _ _ => hlink _
  have ha : Spells "a" "a" := .self (by decide)
  have hdot : Spells "a/." "a" := ⟨by decide, ["."], by decide, by decide⟩
  have hb : Spells "b//" "b" := ⟨by decide, ["", ""], by decide, by decide⟩
  obtain ⟨-, hname, hpair, hrun⟩ := source.siblings_apart "t" place
  have hreaches : ∀ {name core : String} {loc : Location}, Spells name core →
      (respelledDisk.Reaches (place.child name) loc ↔ loc = ["h", "m", core]) := by
    intro name core loc hcore
    have hplace : place.components = [.name "m"] := by decide
    rw [Disk.Reaches, (hname _ _ hcore).1, hplace]
    exact Disk.leads_names ["m", core] fun _ => hlink _
  have hfront : source.Listed "t" respelled :=
    listed_respelledTree.of_subset (List.subset_append_left _ _)
  have hown : source.Listed "t" [besideRespelled] :=
    listed_respelledTree.of_subset (List.subset_append_right _ _)
  obtain ⟨-, hsettled⟩ := hrun ends respelled [] besideRespelled "b" hfront hown
    listed_respelledTree ⟨respelledDisk, []⟩ hb
  have hothers : ∀ f ∈ respelled ++ [], ¬ Spells f.name "b" := by
    intro f hf hspells
    rcases List.mem_pair.1 hf with rfl | rfl
    · exact absurd (ha.unique hspells) (by decide)
    · exact absurd (hdot.unique hspells) (by decide)
  obtain ⟨hkept, hturn⟩ := hsettled hothers hfree _ ((hreaches hb).2 rfl)
  refine ⟨hdot, hb, (hname _ _ hb).2.1, (hname _ _ hdot).2.2.2.2 (by decide), ?_,
    (hpair _ _ _ _ ha hdot).1.2 rfl, (hreaches hdot).2 rfl, ?_, hfront, hown,
    listed_respelledTree, (hkept ["x"] _ _ _).2 rfl, hturn⟩
  · exact fun hends => absurd ((hname _ _ hb).2.2.2.1 hends) (by decide)
  · intro hboth
    have hcores := ((hpair _ _ _ _ hdot hb).2 _ hfree _ ((hreaches hdot).2 rfl)).1 hboth
    exact absurd hcores (by decide)

end GemCourier.Remote
