/-
GemCourier/Proofs/Disk/Kinds.lean

Disks that differ in what their files hold, and at some places in more.

Whether a directory is made, a file is written or something is found there does
not depend on what the files of a disk hold.  So two disks with nodes of the
same kinds but at some places cannot be told apart by a path that avoids these
places: it is found on both at the same location or on neither, and what is made
or written by it, whatever is written, leaves two such disks again.

Nothing on the way to a directory is missing, so its path avoids all places at
which nothing stands.

Main results: `AlikeBut.node`, `AlikeBut.makeFolder`, `AlikeBut.writeFile`,
`Does.differing`, `Enters.meets`.
-/
import GemCourier.Proofs.Disk.Doing
import GemCourier.Proofs.Disk.Entering
import GemCourier.Proofs.Disk.Meeting

namespace GemCourier.Disk

/-- What comes of a change on each of two disks: the same fault, or disks that are related. -/
inductive Matches (related : Disk → Disk → Prop) : Except Fault Disk → Except Fault Disk → Prop
  | ok {d d' : Disk} : related d d' → Matches related (.ok d) (.ok d')
  | error (fault : Fault) : Matches related (.error fault) (.error fault)

variable {d d' e : Disk} {loc dest met : Location} {cs more : List Component} {p q : Path}
  {k k' : Nat} {steps : List Step} {places : Location → Prop}

/-! ### The same kinds -/

theorem AlikeBut.refl (places : Location → Prop) (d : Disk) : AlikeBut places d d where
  start := rfl
  links := fun _ => rfl
  kinds := fun _ _ => rfl

/-- A disk that has grown is like the one before but where nothing stood. -/
theorem Grows.alikeBut (h : d.Grows d') : AlikeBut (fun loc => d.node? loc = none) d d' where
  start := h.start
  links := h.links
  kinds := by
    intro loc hloc
    obtain ⟨node, hnode⟩ := Option.ne_none_iff_exists'.1 hloc
    obtain ⟨node', hnode', hbecomes⟩ := h.stays loc node hnode
    rw [hnode, hnode']
    cases hbecomes <;> rfl

/-- What stands where a path leads that avoids the places. -/
theorem AlikeBut.node (h : AlikeBut places d d') (havoids : d.Avoids p places) :
    (d'.node p).map Node.kind = (d.node p).map Node.kind := by
  have hfind := h.find havoids .through
  rw [Disk.node, Disk.node, lookUp, lookUp, hfind]
  cases harrival : d.find .through p with
  | error fault => rfl
  | ok arrival =>
    cases arrival with
    | absent loc => rfl
    | found loc =>
      have hreaches : d.Reaches p loc := reaches_of_find (Or.inl (by simp)) harrival
      rcases h.node?_cases (havoids loc (leads_origin_iff.2 hreaches).meets) with
        ⟨hd, hd'⟩ | ⟨hd, hd'⟩ | ⟨target, hd, hd'⟩ | ⟨b, t, m, b', t', m', hd, hd'⟩ <;>
        simp only [hd, hd', Except.map, Node.kind]

/-- Whether a file can be read does not depend on what it holds. -/
theorem AlikeBut.readFile (h : AlikeBut places d d') (havoids : d.Avoids p places) :
    (d'.readFile p).map (fun _ => ()) = (d.readFile p).map fun _ => () := by
  have hkind := h.node havoids
  rw [Disk.readFile, Disk.readFile]
  cases hnode : d.node p with
  | error fault =>
    cases hnode' : d'.node p with
    | error fault' =>
      rw [hnode, hnode'] at hkind
      cases hkind
      rfl
    | ok node' =>
      rw [hnode, hnode'] at hkind
      cases hkind
  | ok node =>
    cases hnode' : d'.node p with
    | error fault' =>
      rw [hnode, hnode'] at hkind
      cases hkind
    | ok node' =>
      rw [hnode, hnode'] at hkind
      have hsame : node'.kind = node.kind := Except.ok.inj hkind
      cases node <;> cases node' <;> cases hsame <;> rfl

/-! ### Changing -/

/-- Nodes of the same kind put to one location leave disks of the same kinds. -/
theorem AlikeBut.put (h : AlikeBut places d d') {node node' : Node} (hloc : loc ≠ [])
    (hkind : node'.kind = node.kind) : AlikeBut places (d.put loc node) (d'.put loc node') where
  start := h.start
  links := by
    intro other
    rw [link?_put hloc, link?_put hloc, h.links]
    cases node <;> cases node' <;> cases hkind <;> rfl
  kinds := by
    intro other hother
    rw [node?_put d hloc, node?_put d' hloc]
    split
    · exact congrArg some hkind
    · exact h.kinds other hother

theorem AlikeBut.putFile (h : AlikeBut places d d') (hloc : loc ≠ []) (bytes bytes' : ByteArray)
    (mode mode' : Nat) :
    AlikeBut places (d.putFile loc bytes mode) (d'.putFile loc bytes' mode') := by
  have hput : AlikeBut places (d.put loc (.file bytes d.clock mode))
      (d'.put loc (.file bytes' d'.clock mode')) := h.put hloc rfl
  exact ⟨hput.start, hput.links, hput.kinds⟩

theorem AlikeBut.makeFolder (h : AlikeBut places d d') (havoids : d.Avoids p places) :
    Matches (AlikeBut places) (d.makeFolder p) (d'.makeFolder p) := by
  have hfind := h.find havoids .itself
  cases harrival : d.find .itself p with
  | error fault =>
    rw [harrival] at hfind
    simp only [Disk.makeFolder, harrival, hfind]
    exact .error fault
  | ok arrival =>
    rw [harrival] at hfind
    cases arrival with
    | found loc =>
      simp only [Disk.makeFolder, harrival, hfind]
      exact .error _
    | absent loc =>
      simp only [Disk.makeFolder, harrival, hfind]
      exact .ok (h.put (ne_nil_of_find_absent harrival) rfl)

/-- Whatever is written, the same comes of it on both disks. -/
theorem AlikeBut.writeFile (h : AlikeBut places d d') (havoids : d.Avoids p places)
    (bytes bytes' : ByteArray) :
    Matches (AlikeBut places) (d.writeFile p bytes) (d'.writeFile p bytes') := by
  have hfind := h.find havoids .written
  cases harrival : d.find .written p with
  | error fault =>
    rw [harrival] at hfind
    simp only [Disk.writeFile, harrival, hfind]
    exact .error fault
  | ok arrival =>
    rw [harrival] at hfind
    cases arrival with
    | absent loc =>
      simp only [Disk.writeFile, harrival, hfind]
      exact .ok (h.putFile (ne_nil_of_find_absent harrival) _ _ _ _)
    | found loc =>
      have hreaches : d.Reaches p loc := reaches_of_find (Or.inl (by simp)) harrival
      simp only [Disk.writeFile, harrival, hfind]
      rcases h.node?_cases (havoids loc (leads_origin_iff.2 hreaches).meets) with
        ⟨hd, hd'⟩ | ⟨hd, hd'⟩ | ⟨target, hd, hd'⟩ | ⟨b, t, m, b', t', m', hd, hd'⟩
      · simp only [hd, hd']
        exact .error _
      · simp only [hd, hd']
        exact .error _
      · simp only [hd, hd']
        exact .error _
      · simp only [hd, hd']
        refine .ok (h.putFile ?_ _ _ _ _)
        rintro rfl
        rw [node?_nil] at hd
        cases hd

/-! ### Differing -/

/-- The places where the two disks have nodes of different kinds. -/
def Differing (d d' : Disk) (loc : Location) : Prop :=
  (d'.node? loc).map Node.kind ≠ (d.node? loc).map Node.kind

/-- Disks with the same links are alike but where they differ. -/
theorem alikeBut_differing (hstart : d'.start = d.start)
    (hlinks : ∀ loc, d'.link? loc = d.link? loc) : AlikeBut (Differing d d') d d' where
  start := hstart
  links := hlinks
  kinds := fun _ hloc => not_not.1 hloc

/-- Where nothing was done but to write one file, the kinds differ at its place alone, and nothing
stood there before. -/
theorem Does.differing {deeds : List Deed} (h : d.Does deeds d') (hd : d.WellFormed)
    (hall : ∀ deed ∈ deeds, ∃ bytes, deed = .wrote p bytes) (hloc : Differing d d' loc) :
    d.node? loc = none ∧ d.Reaches p loc ∧ d.Readable p ∧
      ∃ cs n, p.components = cs ++ [.name n] := by
  have hnone : d.node? loc = none := by_contra fun hsome => hloc (h.grows.alikeBut.kinds loc hsome)
  rcases h.node?_eq_or loc with hsame | ⟨q, hq, -⟩ | ⟨q, bytes, _, _, hq, hreaches, hfile⟩
  · exact absurd (congrArg _ hsame) hloc
  · obtain ⟨bytes, hmade⟩ := hall _ hq
    cases hmade
  · obtain ⟨_, hwrote⟩ := hall _ hq
    cases hwrote
    refine ⟨hnone, hreaches, by_contra fun hunreadable => ?_, h.exists_name_of_wrote hd hq⟩
    have hsame : d' = d := h.eq_of_unreadable fun deed hdeed => by
      obtain ⟨_, rfl⟩ := hall deed hdeed
      exact hunreadable
    rw [hsame, hnone] at hfile
    cases hfile

/-! ### Avoiding places -/

/-- What a path avoids it avoids on every disk that has grown. -/
theorem Avoids.grows (hgrows : d.Grows d') (h : d.Avoids p places) : d'.Avoids p places :=
  fun met hmet => h met (hmet.origin_congr hgrows.start.symm fun loc => (hgrows.links loc).symm)

/-- Each part of a path avoids what the whole path does. -/
theorem Avoids.initial (hp : p.components <+: q.components) (hne : p.components ≠ [])
    (h : d.Avoids q places) : d.Avoids p places := by
  obtain ⟨rest, hq⟩ := hp
  have horigin : d.origin q = d.origin p := by
    rw [origin_eq, origin_eq, ← hq, originOf_append d (absurd · hne)]
  intro met hmet
  refine h met ?_
  rw [horigin, ← hq]
  exact hmet.append rest

/-- A way to a directory comes by directories. -/
theorem Way.meets (hd : d.WellFormed) (h : d.Way k loc steps k' dest)
    (hloc : d.node? loc = some .folder)
    (hmeets : d.Meets loc (steps.filterMap Step.component?) met) :
    d.node? met = some .folder := by
  induction h with
  | done =>
    cases hmeets
    exact hloc
  | here _ ih => exact ih hloc hmeets
  | slash _ ih => exact ih hloc hmeets
  | up _ ih =>
    cases hmeets with
    | stop => exact hloc
    | up hmeets => exact ih (hd.folder_dropLast hloc) hmeets
  | down _ hnode _ ih =>
    cases hmeets with
    | stop => exact hloc
    | name _ hmeets => exact ih hnode hmeets
    | link hsome _ =>
      rw [link?, hnode] at hsome
      cases hsome
  | link _ hnode _ ih =>
    cases hmeets with
    | stop => exact hloc
    | name hnone _ =>
      rw [link?_eq_some_iff.2 hnode] at hnone
      cases hnone
    | link hsome hmeets =>
      rw [link?_eq_some_iff.2 hnode] at hsome
      cases hsome
      rcases meets_components_iff.1 hmeets with rfl | hmeets
      · exact hloc
      · rw [List.filterMap_append] at ih
        refine ih ?_ hmeets
        split
        · exact node?_nil d
        · exact hloc

/-- A path that enters a directory comes by directories. -/
theorem Enters.meets (hd : d.WellFormed) (h : d.Enters p.components loc)
    (hmeets : d.Meets (d.origin p) p.components met) : d.node? met = some .folder := by
  obtain ⟨k, hway⟩ := h.way
  have hfolder := h.origin
  rw [meets_origin_iff, Path.steps_moves] at hmeets
  rw [← origin_eq] at hway hfolder
  exact hway.meets hd hfolder hmeets

end GemCourier.Disk
