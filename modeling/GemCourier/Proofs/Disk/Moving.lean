/-
GemCourier/Proofs/Disk/Moving.lean

Moving a file, and changing its mode.

Unlike making directories and writing files, moving a file takes a node away,
so the disk does not grow.  What it keeps are its directories and its symbolic
links (`Frame`), and ways lead through nothing else: what is entered before a
move is entered after it.

A file that is moved stands at its new place and no longer at the old one, and
nothing else changes, since nothing can lie below either of the two.

Main results: `node?_transplant`, `node?_of_moveEntry`, `Enters.move_entry`,
`Enters.setMode_entry`.
-/
import Mathlib.Data.List.Find
import GemCourier.Proofs.Path.Ending

namespace GemCourier.Disk

variable {d d' : Disk} {loc loc' source target : Location} {b : ByteArray} {t : Int} {m : Nat}

/-! ### Directories and links that stay -/

/-- Every directory and every symbolic link of the first disk stands on the second one. -/
structure Frame (d d' : Disk) : Prop where
  start : d'.start = d.start
  stays : ∀ loc node, node.isFile = false → d.node? loc = some node → d'.node? loc = some node

/-- Nothing but files may change, and come or go. -/
theorem Frame.of_files (hstart : d'.start = d.start)
    (h : ∀ loc, d'.node? loc = d.node? loc ∨ ∀ node, d.node? loc = some node → node.isFile = true) :
    d.Frame d' where
  start := hstart
  stays := by
    intro loc node hnode hloc
    rcases h loc with hsame | hfile
    · rw [hsame, hloc]
    · rw [hfile node hloc] at hnode
      cases hnode

theorem Way.frame {k k' : Nat} {steps : List Step} (hframe : d.Frame d')
    (h : d.Way k loc steps k' loc') : d'.Way k loc steps k' loc' := by
  induction h with
  | done => exact .done
  | here _ ih => exact .here ih
  | slash _ ih => exact .slash ih
  | up _ ih => exact .up ih
  | down hshort hnode _ ih => exact .down hshort (hframe.stays _ _ rfl hnode) ih
  | link hshort hnode _ ih => exact .link hshort (hframe.stays _ _ rfl hnode) ih

theorem Enters.frame {cs : List Component} (hframe : d.Frame d') (h : d.Enters cs loc) :
    d'.Enters cs loc := by
  have horigin : d'.originOf cs = d.originOf cs := by rw [originOf, originOf, hframe.start]
  obtain ⟨k, hway⟩ := h.way
  refine ⟨?_, k, ?_⟩
  · rw [horigin]
    exact hframe.stays _ _ rfl h.origin
  · rw [horigin]
    exact hway.frame hframe

/-! ### What is found at an entry -/

/-- Something other than a directory or a file stands where the path leads: a symbolic link. -/
def IsLink (d : Disk) (p : Path) : Prop :=
  ∃ loc target, d.lookUp .itself p = .ok (loc, .link target)

section Entry

variable {cs : List Component} {q : Path} {n : String} {dest : Location}

/-- A path that is not refused is walked from its origin. -/
theorem walk_of_open {aim : Aim} (hempty : q.text ≠ "") (hopen : q.refusal? n = none)
    (horigin : d.node? (d.origin q) = some .folder) (steps : List Step) :
    d.walk aim q steps = d.resolve aim mostLinks (d.origin q) steps := by
  rw [Path.refusal?] at hopen
  split at hopen
  · cases hopen
  · next hnul =>
    split at hopen
    · cases hopen
    · next hlong =>
      rw [walk, if_neg hnul, if_neg hempty, if_neg fun h => hlong (Or.inl h)]
      rw [origin] at horigin ⊢
      by_cases habsolute : q.isAbsolute = true
      · rw [if_pos habsolute, if_pos habsolute]
      · rw [if_neg habsolute] at horigin ⊢
        rw [if_neg habsolute, if_pos horigin]

/-- The steps before the last name of a path move as its components do. -/
theorem moves_of_neat {front : List Step} (hsteps : q.steps = front ++ [.down n])
    (hc : q.components = cs ++ [.name n]) : front.filterMap Step.component? =
      (cs.filterMap Component.step?).filterMap Step.component? := by
  have hall := Path.steps_moves q
  rw [hsteps, hc, List.filterMap_append, List.filterMap_append, List.filterMap_append] at hall
  simpa [Step.component?, Component.step?] using hall

/-- What is found by a path that ends with a name is found in a directory that is entered. -/
theorem exists_enters_of_find (hq : q.Neat n) (hc : q.components = cs ++ [.name n])
    (hfind : d.find .through q = .ok (.found dest)) :
    q.refusal? n = none ∧ ∃ loc, d.Enters cs loc := by
  obtain ⟨hreadable, hresolve⟩ := find_ok_iff.1 hfind
  obtain ⟨front, hsteps⟩ := hq.steps
  rw [hsteps] at hresolve
  obtain ⟨k, loc, hway, hlast⟩ := exists_way_of_resolve hresolve
  have horigin : d.origin q = d.originOf cs := by rw [origin_eq, hc, originOf_concat]
  have hname : ¬ longestName < n.utf8ByteSize := by
    intro hlong
    rw [resolve_down, if_pos hlong] at hlast
    cases hlast
  refine ⟨?_, loc, horigin ▸ hreadable.origin, k, ?_⟩
  · have hnul := hreadable.no_nul
    have hshort := hreadable.short
    rw [Path.refusal?, if_neg (by rw [hnul]; simp), if_neg (by simp [hshort, hname])]
  · rw [← horigin]
    exact hway.congr (moves_of_neat hsteps hc).symm

/-- A symbolic link at an entry is what the path of the entry names. -/
theorem Enters.isLink_entry {target : String} (h : d.Enters cs loc) (hq : q.Neat n)
    (hc : q.components = cs ++ [.name n]) (hopen : q.refusal? n = none)
    (hlink : d.link? (loc ++ [n]) = some target) : d.IsLink q := by
  obtain ⟨k, hway⟩ := h.way
  obtain ⟨front, hsteps⟩ := hq.steps
  have horigin : d.origin q = d.originOf cs := by rw [origin_eq, hc, originOf_concat]
  have hfront : d.Way mostLinks (d.originOf cs) front k loc :=
    hway.congr (moves_of_neat hsteps hc)
  have hnode := link?_eq_some_iff.1 hlink
  have hlast : d.resolve .itself k loc [.down n] = .ok (.found (loc ++ [n])) := by
    refine resolve_of_ended ?_
    simp [follow, Path.short_of_refusal? hopen, hnode]
  refine ⟨loc ++ [n], target, lookUp_ok_iff.2 ⟨?_, hnode⟩⟩
  rw [find, walk_of_open hq.text_ne_empty hopen (horigin ▸ h.origin), horigin, hsteps,
    hfront.resolve_last]
  exact hlast

/-- A file that is written under a name at the end of a path, and not through a link, stands in
the directory that the path enters before the name. -/
theorem exists_enters_of_writeFile {bytes : ByteArray} (hlink : ¬ d.IsLink q) (hq : q.Neat n)
    (hc : q.components = cs ++ [.name n]) (h : d.writeFile q bytes = .ok d') :
    q.refusal? n = none ∧ ∃ loc mode, d.Enters cs loc ∧ d.link? (loc ++ [n]) = none ∧
      d' = d.putFile (loc ++ [n]) bytes mode := by
  obtain ⟨dest, mode, -, hne, hold, hput, hread⟩ := writeFile_ok h
  -- the directory is entered on the new disk, and nothing but a file is new there
  obtain ⟨t, m, hnode⟩ := readFile_ok_iff.1 hread
  obtain ⟨found, hfind, -⟩ := node_ok_iff.1 hnode
  obtain ⟨hopen, loc, hnow⟩ := exists_enters_of_find hq hc hfind
  have hback : d'.Frame d := by
    subst hput
    refine .of_files rfl fun other => ?_
    rw [node?_putFile d hne]
    by_cases hother : other = dest
    · exact Or.inr fun node hfile => by cases (if_pos hother).symm.trans hfile; rfl
    · exact Or.inl (if_neg hother).symm
  have henters := hnow.frame hback
  have hfree : d.link? (loc ++ [n]) = none :=
    Option.eq_none_iff_forall_ne_some.2 fun target htarget =>
      hlink (henters.isLink_entry hq hc hopen htarget)
  have hwrite := henters.writeFile_entry hq hc hfree bytes
  cases hfault : d.writeFault? q n loc with
  | some fault =>
    rw [hfault] at hwrite
    rw [show d.writeFile q bytes = .error fault from hwrite] at h
    cases h
  | none =>
    rw [hfault] at hwrite
    obtain ⟨mode', hput', -⟩ := hwrite
    exact ⟨hopen, loc, mode', henters, hfree, Except.ok.inj (h.symm.trans hput')⟩

end Entry

/-! ### Moving -/

/-- Nothing stands below what is no directory, at any depth. -/
theorem WellFormed.node?_deep (hd : d.WellFormed) (h : d.node? loc ≠ some .folder)
    {names : List String} (hne : names ≠ []) : d.node? (loc ++ names) = none := by
  induction names using List.reverseRecOn with
  | nil => exact absurd rfl hne
  | append_singleton front n ih =>
    rw [← List.append_assoc]
    refine hd.node?_below ?_ n
    by_cases hfront : front = []
    · rwa [hfront, List.append_nil]
    · rw [ih hfront]
      simp

/-- Where a move takes what stands at a location: what stands at or below the old place goes to the
new one, and all else stays. -/
def movedTo (source target loc : Location) : Location :=
  if source.isPrefixOf loc then target ++ loc.drop source.length else loc

theorem movedTo_below (source target rest : Location) :
    movedTo source target (source ++ rest) = target ++ rest := by
  simp [movedTo]

theorem movedTo_beside (target : Location) (h : ¬ source <+: loc) :
    movedTo source target loc = loc := by
  simp [movedTo, List.isPrefixOf_iff_prefix, h]

/-- After a move there stands at a location what was taken there, of all that was not overwritten. -/
theorem node?_transplant_eq_find? (d : Disk) (source target : Location) {other : Location}
    (hother : other ≠ []) : (d.transplant source target).node? other =
      ((d.cut target).nodes.find? fun entry => movedTo source target entry.1 = other).map (·.2) := by
  have hentry : ∀ entry : Location × Node,
      (if source.isPrefixOf entry.1 then (target ++ entry.1.drop source.length, entry.2) else entry) =
        (movedTo source target entry.1, entry.2) := by
    intro entry
    rw [movedTo]
    split <;> rfl
  rw [node?, if_neg hother, transplant]
  simp only [hentry, List.find?_map, Option.map_map]
  rfl

/-- Where a move takes to a location just what stood at another place, that is what stands there. -/
theorem node?_transplant_of_movedTo {place other : Location} (hplace : place ≠ [])
    (hother : other ≠ [])
    (h : ∀ entry ∈ (d.cut target).nodes, movedTo source target entry.1 = other ↔ entry.1 = place) :
    (d.transplant source target).node? other = (d.cut target).node? place := by
  rw [node?_transplant_eq_find? d source target hother, node?, if_neg hplace]
  congr 1
  exact List.find?_congr fun entry hentry => decide_eq_decide.2 (h entry hentry)

/-- What stands at a location after a move: at the new place and below it what stood at the old
place, there nothing any more, and elsewhere what stood there before. -/
theorem node?_transplant (d : Disk) (hsource : ¬ source <+: target) (htarget : ¬ target <+: source)
    (other : Location) :
    (d.transplant source target).node? other =
      if target <+: other then d.node? (source ++ other.drop target.length)
      else if source <+: other then none else d.node? other := by
  have hne : source ≠ [] := fun e => hsource (by simp [e])
  have hne' : target ≠ [] := fun e => htarget (by simp [e])
  have hview : ∀ place, ¬ target <+: place → (d.cut target).node? place = d.node? place := by
    intro place hplace
    rw [node?_cut d hne', if_neg (by simpa [List.isPrefixOf_iff_prefix] using hplace)]
  by_cases hnew : target <+: other
  · obtain ⟨rest, rfl⟩ := hnew
    rw [if_pos (List.prefix_append _ _), List.drop_left]
    have hfree : ¬ target <+: source ++ rest := fun h =>
      (List.prefix_or_prefix_of_prefix h (List.prefix_append _ _)).elim htarget hsource
    rw [← hview _ hfree]
    refine node?_transplant_of_movedTo (by simp [hne]) (by simp [hne']) fun entry hentry => ?_
    by_cases hold : source <+: entry.1
    · obtain ⟨more, hmore⟩ := hold
      rw [← hmore, movedTo_below, List.append_right_inj, List.append_right_inj]
    · rw [movedTo_beside target hold]
      -- what stood at the new place was overwritten, so nothing that stays is there
      have hkept : ¬ target <+: entry.1 := by
        rw [← List.isPrefixOf_iff_prefix, Bool.not_eq_true]
        simpa using (List.mem_filter.1 hentry).2
      exact ⟨fun h => absurd (h ▸ List.prefix_append _ _) hkept,
        fun h => absurd (h ▸ List.prefix_append _ _) hold⟩
  rw [if_neg hnew]
  have hmoved : ∀ entry : Location × Node, source <+: entry.1 →
      movedTo source target entry.1 ≠ other := by
    rintro entry ⟨more, hmore⟩ h
    rw [← hmore, movedTo_below] at h
    exact hnew (h ▸ List.prefix_append _ _)
  by_cases hother : other = []
  · have hroot : ¬ source <+: [] := fun h => hne (List.prefix_nil.1 h)
    rw [hother, if_neg hroot, node?_nil, node?_nil]
  by_cases hgone : source <+: other
  · rw [if_pos hgone, node?_transplant_eq_find? d source target hother, Option.map_eq_none_iff,
      List.find?_eq_none]
    intro entry _
    by_cases hold : source <+: entry.1
    · simpa using hmoved entry hold
    · rw [movedTo_beside target hold]
      simp only [decide_eq_true_eq]
      exact fun h => hold (h ▸ hgone)
  · rw [if_neg hgone, ← hview other hnew]
    refine node?_transplant_of_movedTo hother hother fun entry _ => ?_
    by_cases hold : source <+: entry.1
    · exact ⟨fun h => absurd h (hmoved entry hold), fun h => absurd (h ▸ hold) hgone⟩
    · rw [movedTo_beside target hold]

/-- What has to be for a file to be moved: neither place lies at or below the other, no directory
stands at the new one, and no slash asks for one. -/
theorem moveEntry_file {slash : Bool} (hfile : d.node? source = some (.file b t m))
    (hne : source ≠ target) (h : d.moveEntry source target slash = .ok d') :
    slash = false ∧ ¬ source <+: target ∧ ¬ target <+: source ∧
      d.node? target ≠ some .folder ∧ d' = d.transplant source target := by
  have hslash : slash = false := by
    cases slash with
    | false => rfl
    | true => simp [moveEntry, hfile, Node.isFolder] at h
  subst hslash
  simp only [moveEntry, hfile, Node.isFolder, Bool.not_false, Bool.and_false, Bool.false_eq_true,
    if_false, hne] at h
  split at h
  · cases h
  · next hsource =>
    split at h
    · cases h
    · next htarget =>
      refine ⟨rfl, fun e => hsource (List.isPrefixOf_iff_prefix.2 e),
        fun e => htarget (List.isPrefixOf_iff_prefix.2 e), ?_⟩
      split at h
      · next hnone => exact ⟨by simp [hnone], (Except.ok.inj h).symm⟩
      · next old hold =>
        split at h
        · cases h
        · next hfault =>
          refine ⟨?_, (Except.ok.inj h).symm⟩
          rw [hold]
          rintro ⟨⟩
          simp [replacementFault?, Node.isFolder] at hfault

/-- A file is moved wherever no directory stands. -/
theorem moveEntry_ok (hfile : d.node? source = some (.file b t m)) (hsource : ¬ source <+: target)
    (htarget : ¬ target <+: source) (hfolder : d.node? target ≠ some .folder) :
    d.moveEntry source target false = .ok (d.transplant source target) := by
  have hne : source ≠ target := fun e => hsource (e ▸ List.prefix_refl _)
  simp only [moveEntry, hfile, Node.isFolder, Bool.not_false, Bool.and_false, Bool.false_eq_true,
    if_false, hne, List.isPrefixOf_iff_prefix, hsource, htarget]
  cases hold : d.node? target with
  | none => rfl
  | some old =>
    cases old with
    | folder => exact absurd hold hfolder
    | file => simp [replacementFault?, Node.isFolder]
    | link => simp [replacementFault?, Node.isFolder]

/-- A file that was moved stands at its new place and no longer at the old one, and nothing else
has changed. -/
theorem node?_of_moveEntry {slash : Bool} (hd : d.WellFormed)
    (hfile : d.node? source = some (.file b t m)) (hne : source ≠ target)
    (h : d.moveEntry source target slash = .ok d') (other : Location) :
    d'.node? other = if other = target then some (.file b t m)
      else if other = source then none else d.node? other := by
  obtain ⟨-, hsource, htarget, hfolder, rfl⟩ := moveEntry_file hfile hne h
  have hfile' : d.node? source ≠ some .folder := by simp [hfile]
  rw [node?_transplant d hsource htarget]
  by_cases hnew : other = target
  · rw [if_pos hnew, if_pos (hnew ▸ List.prefix_refl _), hnew, List.drop_length,
      List.append_nil, hfile]
  rw [if_neg hnew]
  by_cases hbelow : target <+: other
  · -- below neither of the two there is anything
    obtain ⟨rest, rfl⟩ := hbelow
    have hrest : rest ≠ [] := fun e => hnew (by rw [e, List.append_nil])
    have hother : target ++ rest ≠ source := fun e => htarget (e ▸ List.prefix_append _ _)
    rw [if_pos (List.prefix_append _ _), List.drop_left, if_neg hother,
      hd.node?_deep hfile' hrest, hd.node?_deep hfolder hrest]
  rw [if_neg hbelow]
  by_cases hold : other = source
  · rw [if_pos hold, if_pos (hold ▸ List.prefix_refl _)]
  rw [if_neg hold]
  split
  · next hgone =>
    obtain ⟨rest, rfl⟩ := hgone
    have hrest : rest ≠ [] := fun e => hold (by rw [e, List.append_nil])
    exact (hd.node?_deep hfile' hrest).symm
  · rfl

section Entry

variable {cs cs' : List Component} {p q : Path} {n n' : String}

/-- The directory of an entry is the one that is entered. -/
theorem Enters.folderOf_entry (h : d.Enters cs loc) (hq : q.Neat n)
    (hc : q.components = cs ++ [.name n]) (hopen : q.refusal? n = none) :
    d.folderOf q = .ok loc := by
  obtain ⟨k, hway⟩ := h.way
  have horigin : d.origin q = d.originOf cs := by rw [origin_eq, hc, originOf_concat]
  obtain ⟨front, hsteps⟩ := hq.steps
  let outer := front.filter (· ≠ .slash) ++ [.slash]
  have houter : (q.steps.filter (· ≠ .slash)).dropLast ++ [.slash] = outer := by
    rw [hsteps, List.filter_append]
    simp [outer]
  -- slashes are no moves, so the steps but the last move as the components do
  have hmoves : outer.filterMap Step.component? = front.filterMap Step.component? := by
    rw [List.filterMap_append, List.filterMap_filter]
    simp only [List.filterMap_cons_none (show Step.component? .slash = none from rfl),
      List.filterMap_nil, List.append_nil]
    refine List.filterMap_congr fun step _ => ?_
    cases step <;> rfl
  have hfront : d.Way mostLinks (d.originOf cs) outer k loc := by
    refine hway.congr ?_
    rw [hmoves, moves_of_neat hsteps hc]
  have hfound : d.walk .through q outer = .ok (.found loc) := by
    rw [walk_of_open hq.text_ne_empty hopen (horigin ▸ h.origin), horigin]
    exact hfront.resolve
  rw [folderOf, houter, hfound]

variable (h : d.Enters cs loc) (hp : p.Neat n) (hc : p.components = cs ++ [.name n])
  (hopen : p.refusal? n = none)
include h hp hc hopen

/-- An entry is moved to a path in the way in which its node is moved to a location, if the path
names an entry of a directory, too. -/
theorem Enters.move_entry (h' : d.Enters cs' loc') (hq : q.Neat n')
    (hc' : q.components = cs' ++ [.name n']) (hopen' : q.refusal? n' = none) :
    d.move p q = d.moveEntry (loc ++ [n]) (loc' ++ [n']) false := by
  have hshort := Path.short_of_refusal? hopen
  have hshort' := Path.short_of_refusal? hopen'
  simp [move, h.folderOf_entry hp hc hopen, h'.folderOf_entry hq hc' hopen', hp.lastStep?,
    hq.lastStep?, hshort, hshort', hp.endsInSlash, hq.endsInSlash]

/-- A file is moved only to a path that ends with a name. -/
theorem Enters.exists_neat_of_move (hfile : d.node? (loc ++ [n]) = some (.file b t m))
    (hmove : d.move p q = .ok d') : ∃ n', q.Neat n' := by
  simp only [move, h.folderOf_entry hp hc hopen, hp.lastStep?] at hmove
  split at hmove
  · cases hmove
  · split at hmove
    · next n₁ n₂ _ hlast =>
      cases hslash : q.endsInSlash with
      | false => exact ⟨n₂, Path.neat_of_lastStep? hlast hslash⟩
      | true =>
        -- with a slash at the end a directory would be needed
        split at hmove
        · cases hmove
        · next hnames =>
          simp_all [moveEntry, Node.isFolder]
    · cases hmove

/-- The mode of an entry that is a file is changed. -/
theorem Enters.setMode_entry (hfile : d.node? (loc ++ [n]) = some (.file b t m)) (mode : Nat) :
    d.setMode p mode = .ok (d.put (loc ++ [n]) (.file b t mode)) := by
  have hfree : d.link? (loc ++ [n]) = none := by simp [link?, hfile]
  have hlook : d.lookUp .through p = .ok (loc ++ [n], .file b t m) := by
    rw [lookUp, h.find_entry hp hc hfree]
    simp [hopen, hfile]
  rw [setMode, hlook]

end Entry

end GemCourier.Disk
