/-
GemCourier/Proofs/Disk/Doing.lean

What a run of deeds tells of each of them.

Each deed of a run was done at some time on a disk that had grown from the first
one and grew into the last one.  So a directory that was made is one at the end,
and a file was written under a path that could be written to: one that ends with
a name, since every other path that leads anywhere leads to a directory.

Main results: `Does.exists_run`, `Does.isFolder_made`, `Does.exists_name_of_wrote`.
-/
import GemCourier.Proofs.Disk.WellFormed

namespace GemCourier.Disk

variable {d d' : Disk} {loc folder : Location} {n : String} {p : Path} {aim : Aim}
  {deeds : List Deed}

/-! ### Paths that do not end with a name -/

/-- Steps that do not end with a name. -/
def Unnamed (steps : List Step) : Prop :=
  ∀ n, (steps.filterMap Step.component?).getLast? ≠ some (.name n)

theorem Unnamed.tail {step : Step} {rest : List Step} (h : Unnamed (step :: rest)) :
    Unnamed rest := by
  intro n hlast
  refine h n ?_
  cases hstep : step.component? with
  | none => rwa [List.filterMap_cons_none hstep]
  | some c =>
    rw [List.filterMap_cons_some hstep, List.getLast?_cons, hlast]
    rfl

/-- Behind a name more than a stay is left of such steps. -/
theorem Unnamed.moves_ne_nil {rest : List Step} (h : Unnamed (.down n :: rest)) :
    rest.filterMap Step.component? ≠ [] := by
  intro hnil
  refine h n ?_
  rw [List.filterMap_cons_some (show Step.component? (.down n) = some (.name n) from rfl), hnil]
  rfl

theorem folder_of_follow_unnamed (hd : d.WellFormed) {steps : List Step} {arrival : Arrival}
    (hfolder : d.node? folder = some .folder) (hsteps : Unnamed steps)
    (h : d.follow aim folder steps = .ended (.ok arrival)) :
    ∃ loc, arrival = .found loc ∧ d.node? loc = some .folder := by
  induction steps generalizing folder with
  | nil =>
    simp only [follow, Stretch.ended.injEq, Except.ok.injEq] at h
    exact ⟨folder, h.symm, hfolder⟩
  | cons step rest ih =>
    have hrest := hsteps.tail
    cases step with
    | here => exact ih hfolder hrest h
    | slash => exact ih hfolder hrest h
    | up => exact ih (hd.folder_dropLast hfolder) hrest h
    | down n =>
      have hmore := hsteps.moves_ne_nil
      simp only [follow] at h
      split at h
      · cases h
      · split at h
        · cases h
        · split at h
          · exact absurd (location_of_arriveAbsent (by simpa using h)).2 hmore
          · next hnode => exact ih hnode hrest h
          · split at h
            · next hnil => exact absurd (by rw [hnil]; rfl) hmore
            · cases h
          · split at h
            · next hnil => exact absurd (by rw [hnil.1]; rfl) hmore
            · cases h

theorem unnamed_of_follow_link {steps rest : List Step} {target : Path} {folder' : Location}
    (hsteps : Unnamed steps) (h : d.follow aim folder steps = .link folder' target rest) :
    Unnamed (target.steps ++ rest) := by
  induction steps generalizing folder with
  | nil => simp [follow] at h
  | cons step steps ih =>
    have hrest := hsteps.tail
    cases step with
    | here => exact ih hrest h
    | slash => exact ih hrest h
    | up => exact ih hrest h
    | down n =>
      have hmore := hsteps.moves_ne_nil
      simp only [follow] at h
      split at h
      · cases h
      · split at h
        · cases h
        · split at h
          · cases h
          · exact ih hrest h
          · cases h
          · split at h
            · cases h
            · cases h
              intro m hlast
              obtain ⟨front, c, hmoves⟩ : ∃ front c,
                  rest.filterMap Step.component? = front ++ [c] := by
                rcases List.eq_nil_or_concat (rest.filterMap Step.component?) with hnil | hmoves
                · exact absurd hnil hmore
                · simpa using hmoves
              refine hrest m ?_
              rw [List.filterMap_append, hmoves, ← List.append_assoc, List.getLast?_concat] at hlast
              rw [hmoves, List.getLast?_concat, hlast]

theorem folder_of_resolve_unnamed (hd : d.WellFormed) {links : Nat} {steps : List Step}
    {arrival : Arrival} (hfolder : d.node? folder = some .folder) (hsteps : Unnamed steps)
    (h : d.resolve aim links folder steps = .ok arrival) :
    ∃ loc, arrival = .found loc ∧ d.node? loc = some .folder := by
  rw [resolve_ok_iff] at h
  induction h with
  | ended hfollow => exact folder_of_follow_unnamed hd hfolder hsteps hfollow
  | link hfollow _ ih =>
    refine ih ?_ (unnamed_of_follow_link hsteps hfollow)
    split
    · exact node?_nil d
    · exact folder_of_follow_link hd hfolder hfollow

/-- A path that does not end with a name leads to a directory, if anything is found there. -/
theorem folder_of_find_unnamed (hd : d.WellFormed) {arrival : Arrival}
    (hnone : ¬ ∃ cs n, p.components = cs ++ [.name n]) (hfind : d.find aim p = .ok arrival) :
    ∃ loc, arrival = .found loc ∧ d.node? loc = some .folder := by
  have hsteps : Unnamed p.steps := by
    intro n hlast
    obtain ⟨front, hcomponents, -⟩ := p.exists_components_eq_steps
    refine hnone ⟨front ++ (p.steps.filterMap Step.component?).dropLast, n, ?_⟩
    rw [hcomponents, List.append_assoc, List.dropLast_append_getLast? _ hlast]
  obtain ⟨hreadable, hresolve⟩ := find_ok_iff.1 hfind
  exact folder_of_resolve_unnamed hd hreadable.origin hsteps hresolve

/-- A file is written only under a path that ends with a name. -/
theorem exists_name_of_writeFile (hd : d.WellFormed) {bytes : ByteArray}
    (h : d.writeFile p bytes = .ok d') : ∃ cs n, p.components = cs ++ [.name n] := by
  by_contra hnone
  rcases writeFile_eq_ok.1 h with ⟨loc, hfind, -⟩ | ⟨loc, b, t, m, hfind, hnode, -⟩
  · obtain ⟨_, harrival, -⟩ := folder_of_find_unnamed hd hnone hfind
    cases harrival
  · obtain ⟨_, harrival, hfolder⟩ := folder_of_find_unnamed hd hnone hfind
    cases harrival
    rw [hfolder] at hnode
    cases hnode

/-- A file is read only under a path that ends with a name. -/
theorem exists_name_of_readFile (hd : d.WellFormed) {bytes : ByteArray}
    (h : d.readFile p = .ok bytes) : ∃ cs n, p.components = cs ++ [.name n] := by
  by_contra hnone
  obtain ⟨t, m, hfile⟩ := readFile_ok_iff.1 h
  obtain ⟨loc, hfind, hnode⟩ := node_ok_iff.1 hfile
  obtain ⟨_, harrival, hfolder⟩ := folder_of_find_unnamed hd hnone hfind
  cases harrival
  rw [hfolder] at hnode
  cases hnode

/-! ### One deed of a run -/

/-- Each deed of a run was done between those before it and those behind it. -/
theorem Does.exists_run (h : d.Does deeds d') {deed : Deed} (hdeed : deed ∈ deeds) :
    ∃ front mid mid' rest, d.Does front mid ∧ deed.run mid = .ok mid' ∧ mid'.Does rest d' := by
  induction h with
  | nothing => simp at hdeed
  | @deed d mid d' first rest hrun hrest ih =>
    rcases List.mem_cons.1 hdeed with rfl | hmem
    · exact ⟨[], d, mid, rest, .nothing d, hrun, hrest⟩
    · obtain ⟨front, mid', mid'', behind, hfront, hrun', hbehind⟩ := ih hmem
      exact ⟨first :: front, mid', mid'', behind, .deed hrun hfront, hrun', hbehind⟩

/-- A directory that was made is one at the end of the run. -/
theorem Does.isFolder_made (h : d.Does deeds d') (hp : .made p ∈ deeds) :
    d'.isFolder p = true := by
  obtain ⟨front, mid, mid', rest, -, hrun, hrest⟩ := h.exists_run hp
  obtain ⟨_, _, _, _, _, hfolder⟩ := makeFolder_ok hrun
  exact hrest.grows.isFolder hfolder

/-- Files are written only under paths that end with a name. -/
theorem Does.exists_name_of_wrote (h : d.Does deeds d') (hd : d.WellFormed) {bytes : ByteArray}
    (hp : .wrote p bytes ∈ deeds) : ∃ cs n, p.components = cs ++ [.name n] := by
  obtain ⟨front, mid, mid', rest, hfront, hrun, -⟩ := h.exists_run hp
  exact exists_name_of_writeFile (hfront.wellFormed hd) hrun

end GemCourier.Disk
