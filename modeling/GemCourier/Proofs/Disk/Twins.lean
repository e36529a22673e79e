/-
GemCourier/Proofs/Disk/Twins.lean

Disks that are alike off a place.

Two disks without links may differ in what lies at and below one place, and in
the times of files.  A path whose way keeps off that place cannot tell them
apart: it is found on both or on neither, at the same location, and what is made
or written by it leaves two such disks again.  So do directories made at the
place and filled there, once they stand on both: the parts of the way to them
are then directories on both.

Without links a way is told from its components alone (`landing`), so keeping
off a place is, too.

Main results: `Twins.find`, `Twins.makeFolder`, `Twins.writeFile`, `Twins.within`.
-/
import GemCourier.Proofs.Disk.Doing
import GemCourier.Proofs.Sync.Again

namespace GemCourier.Disk

/-- Two disks without links have the same nodes off a place, but for the times of files. -/
structure Twins (place : Location) (d d' : Disk) : Prop where
  start : d'.start = d.start
  free : ∀ loc, d.link? loc = none
  free' : ∀ loc, d'.link? loc = none
  same : ∀ loc, ¬ place <+: loc →
    (d'.node? loc).map Node.untimed = (d.node? loc).map Node.untimed

/-- The way along some components keeps off a place. -/
def Off (place loc : Location) (cs : List Component) : Prop :=
  ∀ ds, ds <+: cs → ¬ place <+: landing loc ds

variable {d d' e e' : Disk} {place loc : Location} {cs ds : List Component} {p : Path}
  {steps : List Step} {aim : Aim} {bytes : ByteArray}

/-! ### Keeping off -/

theorem Off.initial (h : Off place loc cs) (hds : ds <+: cs) : Off place loc ds :=
  fun front hfront => h front (hfront.trans hds)

theorem Off.here (h : Off place loc cs) : ¬ place <+: loc :=
  h [] List.nil_prefix

theorem Off.up (h : Off place loc (.up :: cs)) : Off place loc.dropLast cs :=
  fun ds hds => h (.up :: ds) (List.cons_prefix_cons.2 ⟨rfl, hds⟩)

theorem Off.name {n : String} (h : Off place loc (.name n :: cs)) : Off place (loc ++ [n]) cs :=
  fun ds hds => h (.name n :: ds) (List.cons_prefix_cons.2 ⟨rfl, hds⟩)

/-- A path keeps off a place with its steps if it does with its components. -/
theorem Off.along_steps (h : Off place loc p.components) :
    Off place (if p.isAbsolute then [] else loc) (p.steps.filterMap Step.component?) := by
  obtain ⟨front, hcomponents, hfront⟩ := p.exists_components_eq_steps
  intro ds hds
  have hboth := h (front ++ ds) (hcomponents ▸ (List.prefix_append_right_inj front).2 hds)
  rw [landing_append] at hboth
  rcases hfront with ⟨rfl, habsolute⟩ | ⟨rfl, habsolute⟩ | ⟨rfl, habsolute⟩ <;>
    simpa [habsolute, landing] using hboth

/-- Where a path leads that keeps off a place. -/
theorem Off.reaches (h : Off place d.start p.components) (hfree : ∀ loc, d.link? loc = none)
    (hloc : d.Reaches p loc) : ¬ place <+: loc := by
  rw [(reaches_iff_landing hfree).1 hloc]
  exact h _ (List.prefix_refl _)

/-- One step up from a way that keeps off a place does not get there. -/
theorem Off.concat_up (h : Off place loc cs) : Off place loc (cs ++ [.up]) := by
  intro ds hds
  rcases List.prefix_concat_iff.1 hds with rfl | hds
  · rw [landing_append]
    exact fun hbelow => h cs (List.prefix_refl _) (hbelow.trans (List.dropLast_prefix _))
  · exact h ds hds

theorem landing_names (loc : Location) (names : List String) :
    landing loc (names.map .name) = loc ++ names := by
  induction names generalizing loc with
  | nil => simp [landing]
  | cons n rest ih => simp [landing, ih]

/-- A way down some names keeps off a place that it does not lead into. -/
theorem Off.of_names {names : List String} (h : ¬ place <+: loc ++ names) :
    Off place loc (names.map .name) := by
  intro ds hds hbelow
  rw [List.prefix_iff_eq_take, ← List.map_take] at hds
  rw [hds, landing_names] at hbelow
  exact h (hbelow.trans ((List.prefix_append_right_inj loc).2 (List.take_prefix _ _)))

/-- What goes on by names keeps off a place that does not lie further on. -/
theorem Off.append_names (h : Off place loc cs) (hnot : ¬ landing loc cs <+: place)
    (names : List String) : Off place loc (cs ++ names.map .name) := by
  intro ds hds
  rcases List.prefix_or_prefix_of_prefix hds (List.prefix_append cs _) with hpart | ⟨more, rfl⟩
  · exact h ds hpart
  · rw [List.prefix_append_right_inj, List.prefix_iff_eq_take, ← List.map_take] at hds
    rw [hds, landing_append, landing_names]
    intro hbelow
    rcases List.prefix_or_prefix_of_prefix hbelow (List.prefix_append _ _) with hfirst | hlast
    · exact h cs (List.prefix_refl _) hfirst
    · exact hnot hlast

/-! ### Finding -/

/-- What stands at a location off the place. -/
theorem Twins.node?_cases (h : Twins place d d') (hloc : ¬ place <+: loc) :
    (d.node? loc = none ∧ d'.node? loc = none) ∨
      (d.node? loc = some .folder ∧ d'.node? loc = some .folder) ∨
      ∃ b t t' m, d.node? loc = some (.file b t m) ∧ d'.node? loc = some (.file b t' m) := by
  have hsame := h.same loc hloc
  rcases hnode : d.node? loc with _ | (_ | ⟨b, t, m⟩ | target)
  · rw [hnode] at hsame
    exact Or.inl ⟨rfl, Option.map_eq_none_iff.1 hsame⟩
  · rw [hnode] at hsame
    obtain ⟨node', hnode', huntimed⟩ := Option.map_eq_some_iff.1 hsame
    cases node' <;> cases huntimed
    exact Or.inr (Or.inl ⟨rfl, hnode'⟩)
  · rw [hnode] at hsame
    obtain ⟨node', hnode', huntimed⟩ := Option.map_eq_some_iff.1 hsame
    cases node' <;> cases huntimed
    exact Or.inr (Or.inr ⟨b, t, _, m, rfl, hnode'⟩)
  · have hnone := h.free loc
    rw [link?_eq_some_iff.2 hnode] at hnone
    cases hnone

theorem Twins.reaches (h : Twins place d d') : d'.Reaches p loc ↔ d.Reaches p loc := by
  rw [reaches_iff_landing h.free, reaches_iff_landing h.free', h.start]

theorem Twins.folder_iff (h : Twins place d d') (hloc : ¬ place <+: loc) :
    d'.node? loc = some .folder ↔ d.node? loc = some .folder := by
  rcases h.node?_cases hloc with ⟨hd, hd'⟩ | ⟨hd, hd'⟩ | ⟨b, t, t', m, hd, hd'⟩ <;> simp [hd, hd']

/-- Without links nothing is found otherwise for being looked for itself. -/
theorem find_itself (hfree : ∀ loc, d.link? loc = none) (p : Path) :
    d.find .itself p = d.find .through p := by
  have hfollow : ∀ loc steps, d.follow .itself loc steps = d.follow .through loc steps := by
    intro loc steps
    induction steps generalizing loc with
    | nil => rfl
    | cons step rest ih =>
      cases step with
      | here => exact ih loc
      | slash => exact ih loc
      | up => exact ih loc.dropLast
      | down n =>
        rw [follow, follow]
        cases hnode : d.node? (loc ++ [n]) with
        | none => simp
        | some node =>
          cases node with
          | folder => simp [ih]
          | file => simp
          | link target =>
            have hnone := hfree (loc ++ [n])
            rw [link?_eq_some_iff.2 hnode] at hnone
            cases hnone
  have hresolve : ∀ k loc, d.resolve .itself k loc p.steps = d.resolve .through k loc p.steps := by
    intro k loc
    obtain ⟨result, hresult⟩ := exists_follow_ended hfree .through loc p.steps
    rw [resolve_of_ended hresult, resolve_of_ended ((hfollow loc p.steps).trans hresult)]
  rw [find, find, walk, walk]
  simp only [hresolve]

theorem Twins.follow (h : Twins place d d')
    (hoff : Off place loc (steps.filterMap Step.component?)) :
    d'.follow aim loc steps = d.follow aim loc steps := by
  induction steps generalizing loc with
  | nil => rfl
  | cons step rest ih =>
    cases step with
    | here => exact ih hoff
    | slash => exact ih hoff
    | up => exact ih (Off.up hoff)
    | down n =>
      have hrest := ih (Off.name hoff)
      rw [Disk.follow, Disk.follow]
      split
      · rfl
      · split
        · rfl
        · rcases h.node?_cases (Off.name hoff).here with
            ⟨hd, hd'⟩ | ⟨hd, hd'⟩ | ⟨b, t, t', m, hd, hd'⟩
          · rw [hd, hd']
          · rw [hd, hd']
            exact hrest
          · rw [hd, hd']

/-- A path that keeps off the place is found on both disks alike. -/
theorem Twins.find (h : Twins place d d') (hoff : Off place d.start p.components) (aim : Aim) :
    d'.find aim p = d.find aim p := by
  have hresolve : ∀ k, d'.resolve aim k (if p.isAbsolute then [] else d.start) p.steps =
      d.resolve aim k (if p.isAbsolute then [] else d.start) p.steps := by
    intro k
    obtain ⟨result, hresult⟩ := exists_follow_ended h.free aim (if p.isAbsolute then [] else d.start) p.steps
    rw [resolve_of_ended hresult, resolve_of_ended ((h.follow hoff.along_steps).trans hresult)]
  have hstart := h.folder_iff hoff.here
  rw [Disk.find, Disk.find, walk, walk, h.start]
  simp only [hstart]
  cases habsolute : p.isAbsolute with
  | true => simp only [habsolute, if_true] at hresolve ⊢; simp only [hresolve]
  | false => simp only [habsolute, Bool.false_eq_true, if_false] at hresolve ⊢; simp only [hresolve]

/-! ### Changing -/

/-- What comes of the same change on both disks: the same fault, or disks alike off the place. -/
inductive Matched (place : Location) : Except Fault Disk → Except Fault Disk → Prop
  | ok {d d' : Disk} : Twins place d d' → Matched place (.ok d) (.ok d')
  | error (fault : Fault) : Matched place (.error fault) (.error fault)

/-- Disks are alike off the place still when nodes that are alike are put to one location. -/
theorem Twins.put (h : Twins place d d') {node node' : Node} (hloc : loc ≠ [])
    (hlink : ∀ target, node ≠ .link target) (huntimed : node'.untimed = node.untimed) :
    Twins place (d.put loc node) (d'.put loc node') where
  start := h.start
  free := by
    intro other
    rw [link?_put hloc]
    split
    · cases node with
      | link target => exact absurd rfl (hlink target)
      | folder => rfl
      | file => rfl
    · exact h.free other
  free' := by
    intro other
    rw [link?_put hloc]
    split
    · cases node' with
      | link target =>
        cases node <;> cases huntimed
        exact absurd rfl (hlink target)
      | folder => rfl
      | file => rfl
    · exact h.free' other
  same := by
    intro other hother
    rw [node?_put d hloc, node?_put d' hloc]
    split
    · exact congrArg some huntimed
    · exact h.same other hother

theorem Twins.putFile (h : Twins place d d') (hloc : loc ≠ []) (bytes : ByteArray) (mode : Nat) :
    Twins place (d.putFile loc bytes mode) (d'.putFile loc bytes mode) := by
  have hput : Twins place (d.put loc (.file bytes d.clock mode))
      (d'.put loc (.file bytes d'.clock mode)) := h.put hloc (by simp) rfl
  exact ⟨hput.start, hput.free, hput.free', hput.same⟩

theorem Twins.makeFolder (h : Twins place d d') (hoff : Off place d.start p.components) :
    Matched place (d.makeFolder p) (d'.makeFolder p) := by
  have hfind := h.find hoff .itself
  cases harrival : d.find .itself p with
  | error fault =>
    rw [harrival] at hfind
    simp only [Disk.makeFolder, harrival, hfind]
    exact .error fault
  | ok arrival =>
    rw [harrival] at hfind
    cases arrival with
    | found loc =>
      simp only [Disk.makeFolder, harrival, hfind]
      exact .error _
    | absent loc =>
      simp only [Disk.makeFolder, harrival, hfind]
      exact .ok (h.put (ne_nil_of_find_absent harrival) (by simp) rfl)

theorem Twins.writeFile (h : Twins place d d') (hoff : Off place d.start p.components)
    (bytes : ByteArray) : Matched place (d.writeFile p bytes) (d'.writeFile p bytes) := by
  have hfind := h.find hoff .written
  cases harrival : d.find .written p with
  | error fault =>
    rw [harrival] at hfind
    simp only [Disk.writeFile, harrival, hfind]
    exact .error fault
  | ok arrival =>
    rw [harrival] at hfind
    cases arrival with
    | absent loc =>
      simp only [Disk.writeFile, harrival, hfind]
      exact .ok (h.putFile (ne_nil_of_find_absent harrival) _ _)
    | found loc =>
      have hloc : ¬ place <+: loc :=
        hoff.reaches h.free (reaches_of_find (Or.inl (by simp)) harrival)
      simp only [Disk.writeFile, harrival, hfind]
      rcases h.node?_cases hloc with ⟨hd, hd'⟩ | ⟨hd, hd'⟩ | ⟨b, t, t', m, hd, hd'⟩
      · simp only [hd, hd']
        exact .error _
      · simp only [hd, hd']
        exact .error _
      · simp only [hd, hd']
        refine .ok (h.putFile ?_ _ _)
        rintro rfl
        rw [node?_nil] at hd
        cases hd

/-- What stands where a path leads that keeps off the place. -/
theorem Twins.node (h : Twins place d d') (hoff : Off place d.start p.components) :
    (d'.node p).map Node.untimed = (d.node p).map Node.untimed := by
  have hfind := h.find hoff .through
  rw [Disk.node, Disk.node, lookUp, lookUp, hfind]
  cases harrival : d.find .through p with
  | error fault => rfl
  | ok arrival =>
    cases arrival with
    | absent loc => rfl
    | found loc =>
      have hloc : ¬ place <+: loc :=
        hoff.reaches h.free (reaches_of_find (Or.inl (by simp)) harrival)
      rcases h.node?_cases hloc with ⟨hd, hd'⟩ | ⟨hd, hd'⟩ | ⟨b, t, t', m, hd, hd'⟩ <;>
        simp only [hd, hd', Except.map, Node.untimed]

/-! ### Filling -/

/-- What deeds within a directory leave off its place: what stood there, or a directory made at a
part of the way to it. -/
theorem Does.off_within {deeds : List Deed} {root : Path} (hdeeds : d.Does deeds e)
    (hwithin : ∀ deed ∈ deeds, deed.Within root) (hfree : ∀ loc, d.link? loc = none)
    (hplace : d.Reaches root place) (hloc : ¬ place <+: loc) :
    e.node? loc = d.node? loc ∨
      ∃ p : Path, p.components <+: root.components ∧ p.components ≠ [] ∧ d.Reaches p loc := by
  have hbelow : ∀ {p : Path} {names : List String}, p.components = root.components ++ names.map .name →
      ¬ d.Reaches p loc := by
    intro p names hnames hreaches
    obtain ⟨base, hbase, rfl⟩ := (reaches_below (fun _ _ _ => hfree _) hnames).1 hreaches
    exact hloc (hbase.unique hplace ▸ List.prefix_append _ _)
  rcases hdeeds.node?_eq_or loc with hsame | ⟨p, hp, hreaches, -⟩ | ⟨p, bytes, _, _, hp, hreaches, -⟩
  · exact Or.inl hsame
  · rcases hwithin _ hp with hpart | ⟨names, hnames⟩
    · obtain ⟨_, hfind, -⟩ := node_ok_iff.1 (isFolder_iff.1 (hdeeds.isFolder_made hp))
      exact Or.inr ⟨p, hpart, Path.components_ne_nil (find_ok_iff.1 hfind).1.ne_empty, hreaches⟩
    · exact absurd hreaches (hbelow hnames)
  · obtain ⟨names, -, hnames⟩ := hwithin _ hp
    exact absurd hreaches (hbelow hnames)

/-- The parts of a path to a directory are directories. -/
theorem folder_of_part {root : Path} (hd : d.WellFormed) (hroot : d.isFolder root = true)
    (hpart : p.components <+: root.components) (hne : p.components ≠ []) (hloc : d.Reaches p loc) :
    d.node? loc = some .folder := by
  obtain ⟨dest, henters⟩ := enters_of_isFolder hroot
  obtain ⟨more, hmore⟩ := hpart
  rw [← hmore] at henters
  obtain ⟨outer, houter⟩ := henters.initial hne
  obtain ⟨k, hway⟩ := houter.way
  rw [hloc.unique houter.reaches]
  exact hway.folder hd houter.origin

/-- Disks are alike off a directory still when it has been made and filled on both, whatever with
and wherever it was missing. -/
theorem Twins.within {deeds deeds' : List Deed} {root : Path} (h : Twins place d d')
    (hd : d.WellFormed) (hd' : d'.WellFormed) (hplace : d.Reaches root place)
    (hdeeds : d.Does deeds e) (hwithin : ∀ deed ∈ deeds, deed.Within root)
    (hdeeds' : d'.Does deeds' e') (hwithin' : ∀ deed ∈ deeds', deed.Within root)
    (hroot : e.isFolder root = true) (hroot' : e'.isFolder root = true) : Twins place e e' where
  start := by rw [hdeeds.grows.start, hdeeds'.grows.start, h.start]
  free := fun loc => (hdeeds.grows.links loc).trans (h.free loc)
  free' := fun loc => (hdeeds'.grows.links loc).trans (h.free' loc)
  same := by
    intro loc hloc
    -- a part of the way that was made on one disk is a directory on both
    have hboth : (∃ p : Path, p.components <+: root.components ∧ p.components ≠ [] ∧
        d.Reaches p loc) → e.node? loc = some .folder ∧ e'.node? loc = some .folder := by
      rintro ⟨p, hpart, hne, hreaches⟩
      exact ⟨folder_of_part (hdeeds.wellFormed hd) hroot hpart hne (hdeeds.grows.reaches.2 hreaches),
        folder_of_part (hdeeds'.wellFormed hd') hroot' hpart hne
          (hdeeds'.grows.reaches.2 (h.reaches.2 hreaches))⟩
    rcases hdeeds.off_within hwithin h.free hplace hloc with hsame | hpart
    · rcases hdeeds'.off_within hwithin' h.free' (h.reaches.2 hplace) hloc with
        hsame' | ⟨p, hpart, hne, hreaches⟩
      · rw [hsame, hsame']
        exact h.same loc hloc
      · obtain ⟨hfolder, hfolder'⟩ := hboth ⟨p, hpart, hne, h.reaches.1 hreaches⟩
        rw [hfolder, hfolder']
    · obtain ⟨hfolder, hfolder'⟩ := hboth hpart
      rw [hfolder, hfolder']

end GemCourier.Disk
