/-
GemCourier/Proofs/Disk/Growth.lean

Disks that only grow.

The program makes directories where nothing stands and writes files where
nothing or a file stands.  `Grows` is what both have in common: every node stays
and keeps its kind, and no symbolic link comes or goes.  What was found on a
disk is found at the same location on every disk grown from it, and what was
absent is found as soon as a directory or a file has been put there.

Main results: `grows_put_folder`, `grows_putFile`, `find_through_of_grows`.
-/
import GemCourier.Proofs.Disk.Leading

namespace GemCourier

/-- What a node can turn into when a disk grows. -/
inductive Node.Becomes : Node → Node → Prop
  | folder : Becomes .folder .folder
  | link (target : String) : Becomes (.link target) (.link target)
  | file (bytes bytes' : ByteArray) (modified modified' : Int) (mode mode' : Nat) :
      Becomes (.file bytes modified mode) (.file bytes' modified' mode')

theorem Node.Becomes.refl (node : Node) : node.Becomes node := by
  cases node with
  | folder => exact .folder
  | file b t m => exact .file b b t t m m
  | link target => exact .link target

theorem Node.Becomes.trans {a b c : Node} (hab : a.Becomes b) (hbc : b.Becomes c) :
    a.Becomes c := by
  cases hab <;> cases hbc <;> constructor

namespace Disk

/-- The second disk has every node of the first one, of the same kind, and no other symbolic
link. -/
structure Grows (d d' : Disk) : Prop where
  start : d'.start = d.start
  stays : ∀ loc node, d.node? loc = some node → ∃ node', d'.node? loc = some node' ∧ node.Becomes node'
  links : ∀ loc, d'.link? loc = d.link? loc

variable {d d' d'' : Disk} {loc dest : Location}

theorem Grows.refl (d : Disk) : d.Grows d where
  start := rfl
  stays := fun _ node h => ⟨node, h, .refl node⟩
  links := fun _ => rfl

theorem Grows.trans (h : d.Grows d') (h' : d'.Grows d'') : d.Grows d'' where
  start := h'.start.trans h.start
  stays := by
    intro loc node hnode
    obtain ⟨node', hnode', hbecomes⟩ := h.stays loc node hnode
    obtain ⟨node'', hnode'', hbecomes'⟩ := h'.stays loc node' hnode'
    exact ⟨node'', hnode'', hbecomes.trans hbecomes'⟩
  links := fun loc => (h'.links loc).trans (h.links loc)

theorem Grows.folder (h : d.Grows d') (hloc : d.node? loc = some .folder) :
    d'.node? loc = some .folder := by
  obtain ⟨node', hnode', hbecomes⟩ := h.stays loc _ hloc
  cases hbecomes
  exact hnode'

theorem Grows.file (h : d.Grows d') {bytes : ByteArray} {modified : Int} {mode : Nat}
    (hloc : d.node? loc = some (.file bytes modified mode)) :
    ∃ bytes' modified' mode', d'.node? loc = some (.file bytes' modified' mode') := by
  obtain ⟨node', hnode', hbecomes⟩ := h.stays loc _ hloc
  cases hbecomes
  exact ⟨_, _, _, hnode'⟩

theorem Grows.any_isFile (h : d.Grows d') (hfile : (d.node? loc).any Node.isFile = true) :
    (d'.node? loc).any Node.isFile = true := by
  obtain ⟨node, hloc, hnode⟩ := (Option.any_eq_true _ _).1 hfile
  obtain ⟨node', hnode', hbecomes⟩ := h.stays loc _ hloc
  rw [hnode']
  cases hbecomes <;> exact hnode

theorem Grows.reaches (h : d.Grows d') {p : Path} : d'.Reaches p dest ↔ d.Reaches p dest := by
  rw [Reaches, Reaches, h.start]
  exact ⟨Leads.congr fun loc => (h.links loc).symm, Leads.congr h.links⟩

theorem LinkFreeBelow.grows {p : Path} (hgrows : d.Grows d') (h : d.LinkFreeBelow p) :
    d'.LinkFreeBelow p := by
  intro base hbase names
  rw [hgrows.links]
  exact h base (hgrows.reaches.1 hbase) names

/-! ### Growing by one node -/

theorem link?_put (hloc : loc ≠ []) (node : Node) (other : Location) :
    (d.put loc node).link? other =
      if other = loc then (match node with | .link target => some target | _ => none)
      else d.link? other := by
  unfold link?
  rw [node?_put d hloc]
  by_cases h : other = loc
  · simp only [h, if_true]
    cases node <;> rfl
  · simp [h]

/-- A directory put where nothing stands makes the disk grow. -/
theorem grows_put_folder (hloc : loc ≠ []) (hnone : d.node? loc = none) :
    d.Grows (d.put loc .folder) where
  start := rfl
  stays := by
    intro other node hnode
    have hne : other ≠ loc := fun e => by rw [e, hnone] at hnode; cases hnode
    exact ⟨node, by rw [node?_put d hloc, if_neg hne, hnode], .refl node⟩
  links := by
    intro other
    rw [link?_put hloc]
    split
    · next h => simp [h, link?, hnone]
    · rfl

/-- What stands at a location after a file has been written there. -/
theorem node?_putFile (d : Disk) (hloc : loc ≠ []) (bytes : ByteArray) (mode : Nat)
    (other : Location) :
    (d.putFile loc bytes mode).node? other =
      if other = loc then some (.file bytes d.clock mode) else d.node? other := by
  show (d.put loc (.file bytes d.clock mode)).node? other = _
  exact node?_put d hloc _ other

/-- A file written where nothing or a file stands makes the disk grow. -/
theorem grows_putFile {bytes : ByteArray} {mode : Nat} (hloc : loc ≠ [])
    (hold : d.node? loc = none ∨ ∃ b t m, d.node? loc = some (.file b t m)) :
    d.Grows (d.putFile loc bytes mode) where
  start := rfl
  stays := by
    intro other node hnode
    by_cases h : other = loc
    · subst h
      refine ⟨_, by rw [node?_putFile d hloc, if_pos rfl], ?_⟩
      rcases hold with hold | ⟨b, t, m, hold⟩
      · rw [hold] at hnode; cases hnode
      · rw [hold] at hnode
        cases hnode
        exact .file ..
    · exact ⟨node, by rw [node?_putFile d hloc, if_neg h, hnode], .refl node⟩
  links := by
    intro other
    show (d.put loc (.file bytes d.clock mode)).link? other = _
    rw [link?_put hloc]
    split
    · next h =>
      rcases hold with hold | ⟨b, t, m, hold⟩ <;> simp [h, link?, hold]
    · rfl

/-! ### Finding on a grown disk -/

section Finding

variable {aim : Aim} {folder : Location} {steps : List Step} {arrival : Arrival}

/-- Where a way ended, there is now something to find: what was found there is still there,
and where nothing stood there is a directory, or a file if one was to be written. -/
def Settled (d' : Disk) (aim : Aim) : Arrival → Prop
  | .found _ => aim ≠ .itself
  | .absent loc => d'.node? loc = some .folder ∨
      aim = .written ∧ ∃ b t m, d'.node? loc = some (.file b t m)

theorem follow_through_of_ended (hgrows : d.Grows d') (hsettled : d'.Settled aim arrival)
    (h : d.follow aim folder steps = .ended (.ok arrival)) :
    d'.follow .through folder steps = .ended (.ok (.found arrival.location)) := by
  induction steps generalizing folder with
  | nil =>
    simp only [follow, Stretch.ended.injEq, Except.ok.injEq] at h ⊢
    subst h
    rfl
  | cons step rest ih =>
    cases step with
    | here => exact ih h
    | slash => exact ih h
    | up => exact ih h
    | down n =>
      simp only [follow] at h ⊢
      rw [if_neg (by simp)]
      split at h
      · cases h
      · next hslash =>
        split at h
        · cases h
        · next hlong =>
          rw [if_neg hlong]
          split at h
          · -- nothing stood there, so what stands there now ends the way
            next hnode =>
            rw [Stretch.ended.injEq] at h
            unfold arriveAbsent at h
            split at h
            · next hrest =>
              cases h
              rcases hsettled with hnow | ⟨rfl, b, t, m, hnow⟩
              · rw [hnow]
                rcases hrest with rfl | rfl <;> rfl
              · rw [hnow]
                have hnil : rest = [] := hrest.resolve_right fun e => hslash ⟨rfl, e⟩
                simp [hnil, Arrival.location]
            · cases h
          · next hnode =>
            rw [hgrows.folder hnode]
            exact ih h
          · next b t m hnode =>
            -- a file may have been rewritten, which is all that can happen to it
            obtain ⟨b', t', m', hnow⟩ := hgrows.file hnode
            rw [hnow]
            split at h
            · next hrest =>
              simp only [Stretch.ended.injEq, Except.ok.injEq] at h
              subst h
              simp [hrest, Arrival.location]
            · simp at h
          · next target hnode =>
            split at h
            · next hitself =>
              simp only [Stretch.ended.injEq, Except.ok.injEq] at h
              subst h
              -- found as a link itself, which being settled leaves out
              exact absurd hitself.2 hsettled
            · cases h

theorem follow_through_of_link (hgrows : d.Grows d') {folder' : Location} {target : Path}
    {rest : List Step} (h : d.follow aim folder steps = .link folder' target rest) :
    d'.follow .through folder steps = .link folder' target rest := by
  induction steps generalizing folder with
  | nil => simp [follow] at h
  | cons step steps ih =>
    cases step with
    | here => exact ih h
    | slash => exact ih h
    | up => exact ih h
    | down n =>
      simp only [follow] at h ⊢
      rw [if_neg (by simp)]
      split at h
      · cases h
      · split at h
        · cases h
        · next hlong =>
          rw [if_neg hlong]
          split at h
          · cases h
          · next hnode =>
            rw [hgrows.folder hnode]
            exact ih h
          · cases h
          · next text hnode =>
            have hnow : d'.node? (folder ++ [n]) = some (.link text) :=
              link?_eq_some_iff.1 ((hgrows.links _).trans (link?_eq_some_iff.2 hnode))
            rw [hnow]
            split at h
            · cases h
            · simpa using h

theorem resolve_through {links : Nat} (hgrows : d.Grows d') (hsettled : d'.Settled aim arrival)
    (h : d.resolve aim links folder steps = .ok arrival) :
    d'.resolve .through links folder steps = .ok (.found arrival.location) := by
  rw [resolve_ok_iff] at h ⊢
  induction h with
  | ended hfollow => exact .ended (follow_through_of_ended hgrows hsettled hfollow)
  | link hfollow _ ih => exact .link (follow_through_of_link hgrows hfollow) ih

/-- A path that is read goes on being read from the same directory. -/
theorem Grows.readable {p : Path} (hgrows : d.Grows d') (h : d.Readable p) :
    d'.Readable p ∧ d'.origin p = d.origin p := by
  have horigin : d'.origin p = d.origin p := by rw [origin, origin, hgrows.start]
  refine ⟨⟨h.no_nul, h.ne_empty, h.short, ?_⟩, horigin⟩
  rw [horigin]
  exact hgrows.folder h.origin

/-- What a path was resolved to on a disk is found by it on a grown disk, if something to find
stands there. -/
theorem find_through_of_grows {p : Path} (hgrows : d.Grows d') (hsettled : d'.Settled aim arrival)
    (h : d.find aim p = .ok arrival) :
    d'.find .through p = .ok (.found arrival.location) := by
  obtain ⟨hreadable, hresolve⟩ := find_ok_iff.1 h
  obtain ⟨hreadable', horigin⟩ := hgrows.readable hreadable
  refine find_ok_iff.2 ⟨hreadable', ?_⟩
  rw [horigin]
  exact resolve_through hgrows hsettled hresolve

end Finding

end Disk

end GemCourier
