/-
GemCourier/Proofs/Disk/Deeds.lean

What was done to a disk, and by which paths.

A deed is a directory made or a file written, with the path that named it.
`Does` runs a list of deeds from one disk to another.  The disk grows along
such a run, and every location that differs at its end is one to which the path
of a deed leads on the disk it began with (`Does.node?_eq_or`).  A statement
about the paths that were used is therefore a statement about the whole disk.

Main results: `makeFolder_ok`, `writeFile_ok`, `Does.grows`, `Does.node?_eq_or`,
`Does.readFile_eq`.
-/
import GemCourier.Proofs.Disk.Growth

namespace GemCourier.Disk

variable {d d' d'' : Disk} {loc : Location} {p : Path} {aim : Aim}

/-! ### Looking up -/

theorem lookUp_ok_iff {node : Node} :
    d.lookUp aim p = .ok (loc, node) ↔
      d.find aim p = .ok (.found loc) ∧ d.node? loc = some node := by
  unfold lookUp
  constructor
  · intro h
    split at h
    · cases h
    · cases h
    · next found hfind =>
      split at h
      · next node' hnode =>
        cases h
        exact ⟨hfind, hnode⟩
      · cases h
  · rintro ⟨hfind, hnode⟩
    simp [hfind, hnode]

theorem node_ok_iff {n : Node} :
    d.node p = .ok n ↔ ∃ loc, d.find .through p = .ok (.found loc) ∧ d.node? loc = some n := by
  unfold node
  constructor
  · intro h
    cases hlook : d.lookUp .through p with
    | error fault => simp [hlook, Except.map] at h
    | ok entry =>
      obtain ⟨loc, n'⟩ := entry
      simp only [hlook, Except.map, Except.ok.injEq] at h
      subst h
      exact ⟨loc, lookUp_ok_iff.1 hlook⟩
  · rintro ⟨loc, h⟩
    rw [lookUp_ok_iff.2 h]
    rfl

theorem isFolder_iff : d.isFolder p = true ↔ d.node p = .ok .folder := by
  unfold isFolder
  split
  · next node h =>
    rw [h]
    cases node <;> simp [Node.isFolder]
  · next h => simp [h]

theorem isFile_iff :
    d.isFile p = true ↔ ∃ bytes modified mode, d.node p = .ok (.file bytes modified mode) := by
  unfold isFile
  split
  · next node h =>
    rw [h]
    cases node <;> simp [Node.isFile]
  · next h => simp [h]

theorem readFile_ok_iff {bytes : ByteArray} :
    d.readFile p = .ok bytes ↔ ∃ modified mode, d.node p = .ok (.file bytes modified mode) := by
  unfold readFile
  split
  · next h => simp [h]
  · next bytes' t m h => simp [h]
  · next node hother h =>
    rw [h]
    constructor
    · intro e; cases e
    · rintro ⟨t, m, e⟩
      cases e
      exact absurd rfl (hother bytes t m)

theorem Grows.isFolder (h : d.Grows d') (hp : d.isFolder p = true) : d'.isFolder p = true := by
  rw [isFolder_iff, node_ok_iff] at hp ⊢
  obtain ⟨loc, hfind, hnode⟩ := hp
  exact ⟨loc, find_through_of_grows h (by simp [Settled]) hfind, h.folder hnode⟩

/-- What can be read goes on being readable, if not with the same bytes. -/
theorem Grows.exists_readFile (h : d.Grows d') {bytes : ByteArray}
    (hread : d.readFile p = .ok bytes) : ∃ bytes', d'.readFile p = .ok bytes' := by
  obtain ⟨t, m, hnode⟩ := readFile_ok_iff.1 hread
  obtain ⟨loc, hfind, hfile⟩ := node_ok_iff.1 hnode
  obtain ⟨bytes', t', m', hfile'⟩ := h.file hfile
  have hfind' := find_through_of_grows h (by simp [Settled]) hfind
  exact ⟨bytes', readFile_ok_iff.2 ⟨t', m', node_ok_iff.2 ⟨loc, hfind', hfile'⟩⟩⟩

/-- What can be read is a file that the path leads to. -/
theorem exists_reaches_of_readFile {bytes : ByteArray} (hread : d.readFile p = .ok bytes) :
    ∃ loc t m, d.Reaches p loc ∧ d.node? loc = some (.file bytes t m) := by
  obtain ⟨t, m, hnode⟩ := readFile_ok_iff.1 hread
  obtain ⟨loc, hfind, hfile⟩ := node_ok_iff.1 hnode
  exact ⟨loc, t, m, reaches_of_find (Or.inl (by simp)) hfind, hfile⟩

/-! ### Making a directory, writing a file -/

theorem node?_of_follow_absent {folder : Location} {steps : List Step}
    (h : d.follow aim folder steps = .ended (.ok (.absent loc))) : d.node? loc = none := by
  induction steps generalizing folder with
  | nil => simp [follow] at h
  | cons step rest ih =>
    cases step with
    | here => exact ih h
    | slash => exact ih h
    | up => exact ih h
    | down n =>
      simp only [follow] at h
      split at h
      · cases h
      · split at h
        · cases h
        · split at h
          · next hnode =>
            obtain ⟨harrival, _⟩ := location_of_arriveAbsent (by simpa using h)
            cases harrival
            exact hnode
          · exact ih h
          · split at h <;> cases h
          · split at h <;> cases h

/-- Nothing stands where a path was found to be absent. -/
theorem node?_of_find_absent (h : d.find aim p = .ok (.absent loc)) : d.node? loc = none := by
  have hresolves : ∀ {links folder steps}, d.Resolves aim (.absent loc) links folder steps →
      d.node? loc = none := by
    intro links folder steps h
    induction h with
    | ended hfollow => exact node?_of_follow_absent hfollow
    | link _ _ ih => exact ih
  exact hresolves (resolve_ok_iff.1 (find_ok_iff.1 h).2)

theorem ne_nil_of_find_absent (h : d.find aim p = .ok (.absent loc)) : loc ≠ [] := by
  rintro rfl
  have := node?_of_find_absent h
  rw [node?_nil] at this
  cases this

theorem makeFolder_eq_ok :
    d.makeFolder p = .ok d' ↔ ∃ loc, d.find .itself p = .ok (.absent loc) ∧ d.put loc .folder = d' := by
  unfold makeFolder
  split
  · next h => simp [h]
  · next h => simp [h]
  · next loc h => simp [h]

theorem writeFile_eq_ok {bytes : ByteArray} :
    d.writeFile p bytes = .ok d' ↔
      (∃ loc, d.find .written p = .ok (.absent loc) ∧ d.putFile loc bytes newFileMode = d') ∨
      ∃ loc b t mode, d.find .written p = .ok (.found loc) ∧
        d.node? loc = some (.file b t mode) ∧ d.putFile loc bytes mode = d' := by
  unfold writeFile
  split
  · next h => simp [h]
  · next loc h => simp [h]
  · next loc h =>
    split
    · next b t mode hnode =>
      simp only [h, Except.ok.injEq, Arrival.found.injEq, reduceCtorEq, false_and, exists_false,
        false_or]
      constructor
      · intro hput
        exact ⟨loc, b, t, mode, rfl, hnode, hput⟩
      · rintro ⟨loc', b', t', mode', rfl, hnode', hput⟩
        rw [hnode] at hnode'
        cases hnode'
        exact hput
    · next hother =>
      simp only [h, reduceCtorEq, false_iff, Except.ok.injEq, false_and, exists_false, false_or,
        Arrival.found.injEq]
      rintro ⟨loc', b, t, mode, rfl, hnode, _⟩
      exact hother b t mode hnode

/-- A directory is made at a location where nothing stood, and its path leads there. -/
theorem makeFolder_ok (h : d.makeFolder p = .ok d') :
    ∃ loc, d.Reaches p loc ∧ loc ≠ [] ∧ d.node? loc = none ∧ d' = d.put loc .folder ∧
      d'.isFolder p = true := by
  obtain ⟨loc, hfind, rfl⟩ := makeFolder_eq_ok.1 h
  have hne := ne_nil_of_find_absent hfind
  have hnone := node?_of_find_absent hfind
  have hnow : (d.put loc .folder).node? loc = some .folder := by rw [node?_put d hne, if_pos rfl]
  refine ⟨loc, reaches_of_find (Or.inr ⟨loc, rfl⟩) hfind, hne, hnone, rfl, ?_⟩
  rw [isFolder_iff, node_ok_iff]
  have hsettled : (d.put loc .folder).Settled .itself (.absent loc) := Or.inl hnow
  exact ⟨loc, find_through_of_grows (grows_put_folder hne hnone) hsettled hfind, hnow⟩

/-- A file is written at a location where nothing or a file stood, its path leads there, and
it can be read from there. -/
theorem writeFile_ok {bytes : ByteArray} (h : d.writeFile p bytes = .ok d') :
    ∃ loc mode, d.Reaches p loc ∧ loc ≠ [] ∧
      (d.node? loc = none ∨ ∃ b t m, d.node? loc = some (.file b t m)) ∧
      d' = d.putFile loc bytes mode ∧ d'.readFile p = .ok bytes := by
  -- where the file is made and where it is rewritten, it is found on the new disk alike
  have hread : ∀ loc mode arrival, loc ≠ [] → arrival.location = loc →
      (d.node? loc = none ∨ ∃ b t m, d.node? loc = some (.file b t m)) →
      d.find .written p = .ok arrival → (d.putFile loc bytes mode).readFile p = .ok bytes := by
    intro loc mode arrival hne hloc hold hfind
    have hnow : (d.putFile loc bytes mode).node? loc = some (.file bytes d.clock mode) := by
      rw [node?_putFile d hne, if_pos rfl]
    have hsettled : (d.putFile loc bytes mode).Settled .written arrival := by
      subst hloc
      cases arrival with
      | found loc => simp [Settled]
      | absent loc => exact Or.inr ⟨rfl, _, _, _, hnow⟩
    rw [readFile_ok_iff]
    refine ⟨d.clock, mode, node_ok_iff.2 ⟨loc, ?_, hnow⟩⟩
    rw [← hloc]
    exact find_through_of_grows (hloc ▸ grows_putFile hne hold) (hloc ▸ hsettled) hfind
  rcases writeFile_eq_ok.1 h with ⟨loc, hfind, rfl⟩ | ⟨loc, b, t, mode, hfind, hnode, rfl⟩
  · have hne := ne_nil_of_find_absent hfind
    have hold : d.node? loc = none ∨ ∃ b t m, d.node? loc = some (.file b t m) :=
      Or.inl (node?_of_find_absent hfind)
    exact ⟨loc, newFileMode, reaches_of_find (Or.inr ⟨loc, rfl⟩) hfind, hne, hold, rfl,
      hread loc _ _ hne rfl hold hfind⟩
  · have hne : loc ≠ [] := fun e => by rw [e, node?_nil] at hnode; cases hnode
    have hold : d.node? loc = none ∨ ∃ b t m, d.node? loc = some (.file b t m) :=
      Or.inr ⟨b, t, mode, hnode⟩
    exact ⟨loc, mode, reaches_of_find (Or.inl (by simp)) hfind, hne, hold, rfl,
      hread loc _ _ hne rfl hold hfind⟩

/-! ### Deeds -/

end GemCourier.Disk

namespace GemCourier

/-- A change that was made to a disk. -/
inductive Deed where
  /-- A directory was made. -/
  | made (path : Path)
  /-- A file was written. -/
  | wrote (path : Path) (bytes : ByteArray)

namespace Deed

/-- The path that named the place. -/
def path : Deed → Path
  | made p => p
  | wrote p _ => p

/-- The deed done to a disk. -/
def run : Deed → Disk → Except Fault Disk
  | made p, d => d.makeFolder p
  | wrote p bytes, d => d.writeFile p bytes

/-- The deed stays within a directory: a file is written under it, a directory is made under
it or at a part of its path. -/
def Within (root : Path) : Deed → Prop
  | .made p => p.components <+: root.components ∨
      ∃ names : List String, p.components = root.components ++ names.map .name
  | .wrote p _ => ∃ names : List String, names ≠ [] ∧
      p.components = root.components ++ names.map .name

/-- A part of a path that goes on from a root by names is a part of the root, or goes on from
it itself. -/
theorem within_made {root p : Path} (names : List String)
    (h : p.components <+: root.components ++ names.map .name) : Within root (.made p) := by
  -- two parts of one path: one of them is a part of the other
  rcases List.prefix_or_prefix_of_prefix h (List.prefix_append _ _) with hpart | ⟨more, hmore⟩
  · exact Or.inl hpart
  · rw [← hmore, List.prefix_append_right_inj, List.prefix_iff_eq_take, ← List.map_take] at h
    exact Or.inr ⟨names.take more.length, by rw [← hmore, ← h]⟩

end Deed

namespace Disk

variable {d d' d'' : Disk} {loc : Location} {p : Path} {deeds : List Deed}

/-- `d.Does deeds d'`: doing the deeds one after the other turns `d` into `d'`. -/
inductive Does : Disk → List Deed → Disk → Prop
  | nothing (d : Disk) : Does d [] d
  | deed {d d' d'' deed deeds} : Deed.run deed d = .ok d' → Does d' deeds d'' →
      Does d (deed :: deeds) d''

theorem Does.one {deed : Deed} (h : deed.run d = .ok d') : d.Does [deed] d' :=
  .deed h (.nothing d')

theorem Does.append {more : List Deed} (h : d.Does deeds d') (h' : d'.Does more d'') :
    d.Does (deeds ++ more) d'' := by
  induction h with
  | nothing d => exact h'
  | deed hrun _ ih => exact .deed hrun (ih h')

/-- One deed makes the disk grow, and changes it at the one location its path leads to. -/
theorem run_ok {deed : Deed} (h : deed.run d = .ok d') :
    d.Grows d' ∧ ∃ loc, d.Reaches deed.path loc ∧
      (∀ other, other ≠ loc → d'.node? other = d.node? other) ∧
      ((∃ p, deed = .made p ∧ d.node? loc = none ∧ d'.node? loc = some .folder) ∨
        ∃ p bytes t m, deed = .wrote p bytes ∧ d'.node? loc = some (.file bytes t m)) := by
  cases deed with
  | made p =>
    obtain ⟨loc, hreaches, hne, hnone, rfl, _⟩ := makeFolder_ok h
    refine ⟨grows_put_folder hne hnone, loc, hreaches, ?_, Or.inl ⟨p, rfl, hnone, ?_⟩⟩
    · intro other hother
      rw [node?_put d hne, if_neg hother]
    · rw [node?_put d hne, if_pos rfl]
  | wrote p bytes =>
    obtain ⟨loc, mode, hreaches, hne, hold, rfl, _⟩ := writeFile_ok h
    refine ⟨grows_putFile hne hold, loc, hreaches, ?_, Or.inr ⟨p, bytes, d.clock, mode, rfl, ?_⟩⟩
    · intro other hother
      rw [node?_putFile d hne, if_neg hother]
    · rw [node?_putFile d hne, if_pos rfl]

theorem readable_of_run {deed : Deed} (h : deed.run d = .ok d') : d.Readable deed.path := by
  cases deed with
  | made p =>
    obtain ⟨loc, hfind, -⟩ := makeFolder_eq_ok.1 h
    exact (find_ok_iff.1 hfind).1
  | wrote p bytes =>
    rcases writeFile_eq_ok.1 h with ⟨loc, hfind, -⟩ | ⟨loc, _, _, _, hfind, -, -⟩ <;>
      exact (find_ok_iff.1 hfind).1

/-- By paths that cannot be read nothing is done. -/
theorem Does.eq_of_unreadable (h : d.Does deeds d')
    (hunreadable : ∀ deed ∈ deeds, ¬ d.Readable deed.path) : d' = d := by
  cases h with
  | nothing => rfl
  | deed hrun _ => exact absurd (readable_of_run hrun) (hunreadable _ (by simp))

theorem Does.grows (h : d.Does deeds d') : d.Grows d' := by
  induction h with
  | nothing d => exact .refl d
  | deed hrun _ ih => exact (run_ok hrun).1.trans ih

/-- What stands at a location after some deeds: what stood there before, a directory made
where nothing stood, or a file written.  The deed is one whose path leads there. -/
theorem Does.node?_eq_or (h : d.Does deeds d') (loc : Location) :
    d'.node? loc = d.node? loc ∨
      (∃ p, .made p ∈ deeds ∧ d.Reaches p loc ∧ d.node? loc = none ∧
        d'.node? loc = some .folder) ∨
      ∃ p bytes t m, .wrote p bytes ∈ deeds ∧ d.Reaches p loc ∧
        d'.node? loc = some (.file bytes t m) := by
  induction h with
  | nothing d => exact Or.inl rfl
  | @deed d d₁ d₂ first rest hrun hrest ih =>
    obtain ⟨hgrows, at₁, hreaches, hother, hfirst⟩ := run_ok hrun
    have hback : ∀ {p}, d₁.Reaches p loc → d.Reaches p loc := hgrows.reaches.1
    by_cases hloc : loc = at₁
    · subst hloc
      rcases hfirst with ⟨p, rfl, hnone, hnow⟩ | ⟨p, bytes, t, m, rfl, hnow⟩
      · -- a directory made there stays one
        have hstays := hrest.grows.folder hnow
        exact Or.inr (Or.inl ⟨p, by simp, hreaches, hnone, hstays⟩)
      · rcases ih with hsame | ⟨q, _, _, hnone, _⟩ | ⟨q, b, t', m', hq, hqreaches, hq'⟩
        · exact Or.inr (Or.inr ⟨p, bytes, t, m, by simp, hreaches, hsame.trans hnow⟩)
        · rw [hnow] at hnone; cases hnone
        · exact Or.inr (Or.inr ⟨q, b, t', m', by simp [hq], hback hqreaches, hq'⟩)
    · rcases ih with hsame | ⟨q, hq, hqreaches, hnone, hq'⟩ | ⟨q, b, t', m', hq, hqreaches, hq'⟩
      · exact Or.inl (hsame.trans (hother loc hloc))
      · exact Or.inr (Or.inl ⟨q, by simp [hq], hback hqreaches, by rw [← hother loc hloc, hnone], hq'⟩)
      · exact Or.inr (Or.inr ⟨q, b, t', m', by simp [hq], hback hqreaches, hq'⟩)

/-- Where no deed wrote, the same file stands before and after, or none. -/
theorem Does.file_iff (h : d.Does deeds d') {bytes : ByteArray} {t : Int} {m : Nat}
    (hunwritten : ∀ p b, .wrote p b ∈ deeds → ¬ d.Reaches p loc) :
    d'.node? loc = some (.file bytes t m) ↔ d.node? loc = some (.file bytes t m) := by
  rcases h.node?_eq_or loc with
    hsame | ⟨_, _, _, hnone, hfolder⟩ | ⟨p, b, _, _, hp, hreaches, _⟩
  · rw [hsame]
  · simp [hnone, hfolder]
  · exact absurd hreaches (hunwritten p b hp)

/-- A directory that was not there was made by a path that leads to it. -/
theorem Does.exists_made (h : d.Does deeds d') (hnone : d.node? loc = none)
    (hfolder : d'.node? loc = some .folder) : ∃ p, .made p ∈ deeds ∧ d.Reaches p loc := by
  rcases h.node?_eq_or loc with hsame | ⟨p, hp, hreaches, _⟩ | ⟨_, _, _, _, _, _, hfile⟩
  · rw [hfolder, hnone] at hsame; cases hsame
  · exact ⟨p, hp, hreaches⟩
  · rw [hfolder] at hfile; cases hfile

/-- A file that was read by a path reads the same afterwards, if no deed wrote to it. -/
theorem Does.readFile_eq (h : d.Does deeds d') {bytes : ByteArray}
    (hread : d.readFile p = .ok bytes)
    (hunwritten : ∀ q b, .wrote q b ∈ deeds → ∀ loc, d.Reaches q loc → ¬ d.Reaches p loc) :
    d'.readFile p = .ok bytes := by
  obtain ⟨t, m, hnode⟩ := readFile_ok_iff.1 hread
  obtain ⟨loc, hfind, hfile⟩ := node_ok_iff.1 hnode
  have hreaches : d.Reaches p loc := reaches_of_find (Or.inl (by simp)) hfind
  have hfile' := (h.file_iff fun q b hq hq' => hunwritten q b hq loc hq' hreaches).2 hfile
  have hfind' := find_through_of_grows h.grows (by simp [Settled]) hfind
  exact readFile_ok_iff.2 ⟨t, m, node_ok_iff.2 ⟨loc, hfind', hfile'⟩⟩

end Disk

end GemCourier
