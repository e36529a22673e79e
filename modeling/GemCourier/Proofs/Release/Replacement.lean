/-
GemCourier/Proofs/Release/Replacement.lean

What comes of replacing an executable.

The staging file of a path is an entry of the directory that the path ends in,
or that it leads to or out of, under a name of its own (`Staging`).  Writing it
is therefore writing beside the executable, and moving it leaves one file where
the executable was and none where the staging file was.  `Replaces` tells the
three ways in which this can end: the staging file was not written, it was
written and not moved, or it took the executable's place.

Main results: `Staging.aside`, `install_replaces`.
-/
import GemCourier.Proofs.Disk.Moving
import GemCourier.Release.Installation

namespace GemCourier.Release

open Disk

/-! ### The staging file -/

/-- The staging file of a path is an entry of the directory `folder`, which is entered by the
components `cs`; with the suffix taken off, what they end with is what the path ends with. -/
structure Staging (d : Disk) (path : Path) (cs : List Component) (last : String)
    (folder : Location) : Prop where
  enters : d.Enters cs folder
  neat : (stagingPath path).Neat (last ++ ".new")
  components : (stagingPath path).components = cs ++ [.name (last ++ ".new")]
  opens : (stagingPath path).refusal? (last ++ ".new") = none
  free : d.link? (folder ++ [last ++ ".new"]) = none
  beside : path.Neat last ∧ path.components = cs ++ [.name last] ∨ (∀ n, ¬ path.Neat n) ∧
    (path.components = cs ∨ path.components = cs ++ [.here] ∨ path.components = cs ++ [.up])

variable {d d' : Disk} {path : Path} {cs : List Component} {last : String} {folder : Location}
  {bytes : ByteArray}

/-- A staging file that is written is written so. -/
theorem exists_staging (hlink : ¬ d.IsLink (stagingPath path))
    (h : d.writeFile (stagingPath path) bytes = .ok d') : ∃ cs last folder mode,
      Staging d path cs last folder ∧
        d' = d.putFile (folder ++ [last ++ ".new"]) bytes mode ∧ d.Grows d' := by
  obtain ⟨cs, last, hneat, hcomponents, hbeside⟩ :=
    path.exists_suffixed (show '/' ∉ ".new".toList by decide) (by decide)
  obtain ⟨hopen, folder, mode, henters, hfree, hput⟩ :=
    exists_enters_of_writeFile hlink hneat hcomponents h
  have hrun : Deed.run (.wrote (stagingPath path) bytes) d = .ok d' := h
  have hgrows := (run_ok hrun).1
  exact ⟨cs, last, folder, mode, ⟨henters, hneat, hcomponents, hopen, hfree, hbeside⟩, hput, hgrows⟩

theorem entry_ne_staged : folder ++ [last] ≠ folder ++ [last ++ ".new"] := by
  intro hsame
  have hlength := congrArg String.length (List.singleton_inj.1 (List.append_cancel_left hsame))
  rw [String.length_append] at hlength
  exact absurd hlength (by simp)

namespace Staging

variable (hs : Staging d path cs last folder)
include hs

theorem grows (hgrows : d.Grows d') : Staging d' path cs last folder where
  enters := hs.enters.grows hgrows
  neat := hs.neat
  components := hs.components
  opens := hs.opens
  free := by rw [hgrows.links, hs.free]
  beside := hs.beside

theorem leads : d.Leads d.start cs folder :=
  hs.enters.leads ((stagingPath path).canonical_components.initial
    (hs.components ▸ List.prefix_append _ _))

theorem reaches : d.Reaches (stagingPath path) (folder ++ [last ++ ".new"]) := by
  rw [Reaches, hs.components]
  exact leads_append.2 ⟨folder, hs.leads, .name hs.free (.done _)⟩

/-- A path that is no link and ends with a name leads to the entry under this name. -/
theorem free_path (hlink : ¬ d.IsLink path) (hneat : path.Neat last)
    (hc : path.components = cs ++ [.name last]) :
    d.link? (folder ++ [last]) = none ∧ d.Reaches path (folder ++ [last]) := by
  have hopen : path.refusal? last = none := Path.refusal?_of_suffixed hs.opens
  have hfree : d.link? (folder ++ [last]) = none :=
    Option.eq_none_iff_forall_ne_some.2 fun target htarget =>
      hlink (hs.enters.isLink_entry hneat hc hopen htarget)
  refine ⟨hfree, ?_⟩
  rw [Reaches, hc]
  exact leads_append.2 ⟨folder, hs.leads, .name hfree (.done _)⟩

/-- A path that is no link does not lead to its own staging file. -/
theorem aside (hlink : ¬ d.IsLink path) :
    ¬ d.Reaches path (folder ++ [last ++ ".new"]) := by
  intro hreaches
  have hlength : (folder ++ [last ++ ".new"]).length = folder.length + 1 := by simp
  have hleads : ∀ c dest, path.components = cs ++ c → d.Leads folder c dest →
      folder ++ [last ++ ".new"] = dest := fun c dest hc hdest =>
    hreaches.unique (show d.Reaches path dest by
      rw [Reaches, hc]
      exact leads_append.2 ⟨folder, hs.leads, hdest⟩)
  rcases hs.beside with ⟨hneat, hc⟩ | ⟨-, hc | hc | hc⟩
  · exact entry_ne_staged ((hs.free_path hlink hneat hc).2.unique hreaches)
  · rw [hleads [] folder (by rw [hc, List.append_nil]) (.done _)] at hlength
    omega
  · rw [hleads _ folder hc (.here (.done _))] at hlength
    omega
  · rw [hleads _ folder.dropLast hc (.up (.done _)), List.length_dropLast] at hlength
    omega

/-- A staging file is moved only over an entry beside it. -/
theorem neat_of_move {t : Int} {m : Nat}
    (hfile : d.node? (folder ++ [last ++ ".new"]) = some (.file bytes t m))
    (hmove : d.move (stagingPath path) path = .ok d') :
    path.Neat last ∧ path.components = cs ++ [.name last] := by
  obtain ⟨n, hn⟩ := hs.enters.exists_neat_of_move hs.neat hs.components hs.opens hfile hmove
  exact hs.beside.resolve_right fun h => h.1 n hn

/-- What moving the staging file over the executable and making it runnable there comes to: all
is as before but for the two entries. -/
theorem moved {t : Int} {m : Nat} (hd : d.WellFormed)
    (hfile : d.node? (folder ++ [last ++ ".new"]) = some (.file bytes t m))
    (hneat : path.Neat last) (hc : path.components = cs ++ [.name last])
    (hfree : d.link? (folder ++ [last]) = none)
    (hmove : d.move (stagingPath path) path = .ok d') (mode : Nat) :
    ∃ d'', d'.setMode path mode = .ok d'' ∧ ∀ other, d''.node? other =
      if other = folder ++ [last] then some (.file bytes t mode)
      else if other = folder ++ [last ++ ".new"] then none else d.node? other := by
  have hopen : path.refusal? last = none := Path.refusal?_of_suffixed hs.opens
  rw [hs.enters.move_entry hs.neat hs.components hs.opens hs.enters hneat hc hopen] at hmove
  have hnode := node?_of_moveEntry hd hfile (Ne.symm entry_ne_staged) hmove
  obtain ⟨-, -, -, hfolder, hmoved⟩ := moveEntry_file hfile (Ne.symm entry_ne_staged) hmove
  -- neither of the two entries was a directory or a link
  have hframe : d.Frame d' := by
    refine .of_files (by rw [hmoved]; rfl) fun other => ?_
    rw [hnode]
    by_cases hnew : other = folder ++ [last]
    · refine Or.inr fun node hold => ?_
      rw [hnew] at hold
      cases node with
      | folder => exact absurd hold hfolder
      | file => rfl
      | link target => rw [link?_eq_some_iff.2 hold] at hfree; cases hfree
    · by_cases hold : other = folder ++ [last ++ ".new"]
      · refine Or.inr fun node hthere => ?_
        rw [hold, hfile] at hthere
        cases hthere
        rfl
      · exact Or.inl (by rw [if_neg hnew, if_neg hold])
  have hthere : d'.node? (folder ++ [last]) = some (.file bytes t m) := by
    rw [hnode, if_pos rfl]
  refine ⟨_, (hs.enters.frame hframe).setMode_entry hneat hc hopen hthere mode, fun other => ?_⟩
  rw [node?_put d' (by simp), hnode]
  split <;> rfl

end Staging

/-! ### Installing -/

/-- `Replaces bytes path d answer d'`: what putting bytes in the place of the executable at
`path` can answer on the disk `d`, and the disk it leaves behind. -/
inductive Replaces (bytes : ByteArray) (path : Path) (d : Disk) :
    Except InstallError Unit → Disk → Prop
  /-- The staging file was not written, and nothing has changed. -/
  | unstaged {fault : Fault} :
      Replaces bytes path d (.error (.stage (stagingPath path) fault)) d
  /-- The staging file was written and stays behind, which is all that has changed. -/
  | unmoved {fault : Fault} {d' : Disk} {staged : Location} :
      d.Reaches (stagingPath path) staged → ¬ d.Reaches path staged →
      (∀ other, other ≠ staged → d'.node? other = d.node? other) →
      Replaces bytes path d (.error (.replace (stagingPath path) path fault)) d'
  /-- The executable is the new one, no staging file is left, and nothing else has changed. -/
  | replaced {d' : Disk} {loc staged : Location} {t : Int} :
      d.Reaches path loc → d.Reaches (stagingPath path) staged →
      d'.node? loc = some (.file bytes t runnableMode) → d'.node? staged = none →
      (∀ other, other ≠ loc → other ≠ staged → d'.node? other = d.node? other) →
      Replaces bytes path d (.ok ()) d'

section

variable {h : Host} {fault : Fault}

theorem install_unstaged (hwrite : h.disk.writeFile (stagingPath path) bytes = .error fault) :
    (install bytes path).answer h = .error (.stage (stagingPath path) fault) ∧
      ((install bytes path).after h).disk = h.disk := by
  let noted := (Act.note .debug
    s!"Writing {bytes.size} byte(s) to {h.disk.describe (stagingPath path)}").after h
  obtain ⟨hchange, hafter⟩ :=
    Act.change_error (f := (·.writeFile (stagingPath path) bytes)) (h := noted) hwrite
  simp only [install, Act.answer_bind, Act.after_bind, Act.answer_disk, Act.after_disk]
  rw [hchange, hafter]
  exact ⟨rfl, rfl⟩

theorem install_unmoved (hwrite : h.disk.writeFile (stagingPath path) bytes = .ok d)
    (hmove : d.move (stagingPath path) path = .error fault) :
    (install bytes path).answer h = .error (.replace (stagingPath path) path fault) ∧
      ((install bytes path).after h).disk = d := by
  let noted := (Act.note .debug
    s!"Writing {bytes.size} byte(s) to {h.disk.describe (stagingPath path)}").after h
  obtain ⟨hchange, hafter⟩ :=
    Act.change_ok (f := (·.writeFile (stagingPath path) bytes)) (h := noted) hwrite
  obtain ⟨hchange', hafter'⟩ :=
    Act.change_error (f := (·.move (stagingPath path) path)) (h := { noted with disk := d }) hmove
  simp only [install, Act.answer_bind, Act.after_bind, Act.answer_disk, Act.after_disk]
  rw [hchange, hafter]
  simp only [Act.answer_bind, Act.after_bind]
  rw [hchange', hafter']
  exact ⟨rfl, rfl⟩

theorem install_moved {d'' : Disk} (hwrite : h.disk.writeFile (stagingPath path) bytes = .ok d)
    (hmove : d.move (stagingPath path) path = .ok d')
    (hmode : d'.setMode path runnableMode = .ok d'') :
    (install bytes path).answer h = .ok () ∧ ((install bytes path).after h).disk = d'' := by
  let noted := (Act.note .debug
    s!"Writing {bytes.size} byte(s) to {h.disk.describe (stagingPath path)}").after h
  obtain ⟨hchange, hafter⟩ :=
    Act.change_ok (f := (·.writeFile (stagingPath path) bytes)) (h := noted) hwrite
  obtain ⟨hchange', hafter'⟩ :=
    Act.change_ok (f := (·.move (stagingPath path) path)) (h := { noted with disk := d }) hmove
  obtain ⟨hchange'', hafter''⟩ :=
    Act.change_ok (f := (·.setMode path runnableMode)) (h := { noted with disk := d' }) hmode
  simp only [install, Act.answer_bind, Act.after_bind, Act.answer_disk, Act.after_disk]
  rw [hchange, hafter]
  simp only [Act.answer_bind, Act.after_bind]
  rw [hchange', hafter']
  simp only [makeRunnable, Act.answer_bind, Act.after_bind]
  rw [hchange'', hafter'']
  exact ⟨rfl, rfl⟩

/-- An installation ends in one of three ways, whatever stands at the executable and at its
staging file. -/
theorem install_replaces (bytes : ByteArray) (hd : h.disk.WellFormed)
    (hpath : ¬ h.disk.IsLink path) (hstaged : ¬ h.disk.IsLink (stagingPath path)) :
    Replaces bytes path h.disk ((install bytes path).answer h)
      ((install bytes path).after h).disk := by
  cases hwrite : h.disk.writeFile (stagingPath path) bytes with
  | error fault =>
    obtain ⟨hanswer, hafter⟩ := install_unstaged hwrite
    rw [hanswer, hafter]
    exact .unstaged
  | ok d =>
    obtain ⟨cs, last, folder, mode, hs, hput, hgrows⟩ := exists_staging hstaged hwrite
    have hnode : ∀ other, d.node? other = if other = folder ++ [last ++ ".new"] then
        some (.file bytes h.disk.clock mode) else h.disk.node? other := fun other => by
      rw [hput, node?_putFile _ (by simp)]
    have hfile : d.node? (folder ++ [last ++ ".new"]) = some (.file bytes h.disk.clock mode) := by
      rw [hnode, if_pos rfl]
    have hs' := hs.grows hgrows
    cases hmove : d.move (stagingPath path) path with
    | error fault =>
      obtain ⟨hanswer, hafter⟩ := install_unmoved hwrite hmove
      rw [hanswer, hafter]
      refine .unmoved hs.reaches (hs.aside hpath) fun other hother => ?_
      rw [hnode, if_neg hother]
    | ok d' =>
      obtain ⟨hneat, hc⟩ := hs'.neat_of_move hfile hmove
      obtain ⟨hfree, hreaches⟩ := hs.free_path hpath hneat hc
      have hwf : d.WellFormed :=
        run_wellFormed hd (show Deed.run (.wrote (stagingPath path) bytes) h.disk = .ok d from hwrite)
      obtain ⟨d'', hmode, hnode'⟩ := hs'.moved hwf hfile hneat hc (by rw [hgrows.links, hfree])
        hmove runnableMode
      obtain ⟨hanswer, hafter⟩ := install_moved hwrite hmove hmode
      rw [hanswer, hafter]
      refine .replaced hreaches hs.reaches (by rw [hnode', if_pos rfl]) ?_ ?_
      · rw [hnode', if_neg (Ne.symm entry_ne_staged), if_pos rfl]
      · intro other hloc hstaged
        rw [hnode', if_neg hloc, if_neg hstaged, hnode, if_neg hstaged]

/-- An executable is replaced if the directory of its path is there and neither a directory nor a
link stands under its name or under that of its staging file. -/
theorem install_ok (bytes : ByteArray) (hd : h.disk.WellFormed) (henters : h.disk.Enters cs folder)
    (hneat : path.Neat last) (hc : path.components = cs ++ [.name last])
    (hopen : (stagingPath path).refusal? (last ++ ".new") = none)
    (hentry : ∀ n ∈ [last, last ++ ".new"], h.disk.link? (folder ++ [n]) = none ∧
      h.disk.node? (folder ++ [n]) ≠ some .folder) :
    (install bytes path).answer h = .ok () := by
  have hs : Staging h.disk path cs last folder := by
    obtain ⟨cs', last', hneat', hc', hbeside⟩ :=
      path.exists_suffixed (show '/' ∉ ".new".toList by decide) (by decide)
    obtain ⟨hpath, hcomponents⟩ := hbeside.resolve_right fun hnone => hnone.1 last hneat
    obtain ⟨rfl, hlast⟩ := List.append_inj' (hc.symm.trans hcomponents) rfl
    obtain rfl : last = last' := by simpa using hlast
    exact ⟨henters, hneat', hc', hopen, (hentry _ (by simp)).1, Or.inl ⟨hneat, hc⟩⟩
  have hfault : h.disk.writeFault? (stagingPath path) (last ++ ".new") folder = none := by
    simp [writeFault?, hopen, (hentry (last ++ ".new") (by simp)).2]
  have hwrite := henters.writeFile_entry hs.neat hs.components hs.free bytes
  rw [hfault] at hwrite
  obtain ⟨mode, hwrite, -⟩ := hwrite
  let d := h.disk.putFile (folder ++ [last ++ ".new"]) bytes mode
  have hrun : Deed.run (.wrote (stagingPath path) bytes) h.disk = .ok d := hwrite
  have hgrows := (run_ok hrun).1
  have hnode := node?_putFile h.disk (show folder ++ [last ++ ".new"] ≠ [] by simp) bytes mode
  have hs' := hs.grows hgrows
  have hnew := (hentry last (by simp)).2
  have hmove := hs'.enters.move_entry hs.neat hs.components hopen hs'.enters hneat hc
    (Path.refusal?_of_suffixed hopen)
  rw [moveEntry_ok (by rw [hnode, if_pos rfl])
    (fun hbelow => entry_ne_staged (hbelow.eq_of_length (by simp)).symm)
    (fun hbelow => entry_ne_staged (hbelow.eq_of_length (by simp)))
    (by rwa [hnode, if_neg entry_ne_staged])] at hmove
  obtain ⟨d'', hmode, -⟩ := hs'.moved (run_wellFormed hd hrun) (by rw [hnode, if_pos rfl]) hneat hc
    (by rw [hgrows.links, (hentry last (by simp)).1]) hmove runnableMode
  exact (install_moved hwrite hmove hmode).1

end

end GemCourier.Release
