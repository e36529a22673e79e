/-
GemCourier/Proofs/Disk/Ways.lean

Ways through directories, with the links they use up.

`Way k loc steps k' loc'` takes steps one by one from one directory to another
and counts the symbolic links that may still be followed.  Unlike resolving, it
can be cut anywhere: a way along some steps and then others is a way to a
directory in between and one from there.

A step by a name either goes one location further or uses up a link, so no way
takes more such steps than there are links times the depth of the disk.  This
is what `gain` counts.

Main results: `way_append`, `exists_way_of_resolve`, `gain_lt_of_way`,
`gain_lt_walkBound`.
-/
import Mathlib.Data.List.MinMax
import GemCourier.Proofs.Disk.WellFormed
import GemCourier.Sync.Scan

namespace GemCourier.Disk

/-! ### Ways -/

/-- `d.Way k loc steps k' loc'`: the steps lead from the directory `loc` through directories to
the directory `loc'`, and of `k` links that may be followed `k'` are left. -/
inductive Way (d : Disk) : Nat → Location → List Step → Nat → Location → Prop
  | done {k loc} : Way d k loc [] k loc
  | here {k loc rest k' loc'} : Way d k loc rest k' loc' → Way d k loc (.here :: rest) k' loc'
  | slash {k loc rest k' loc'} : Way d k loc rest k' loc' → Way d k loc (.slash :: rest) k' loc'
  | up {k loc rest k' loc'} : Way d k loc.dropLast rest k' loc' →
      Way d k loc (.up :: rest) k' loc'
  | down {k loc n rest k' loc'} : ¬ longestName < n.utf8ByteSize →
      d.node? (loc ++ [n]) = some .folder → Way d k (loc ++ [n]) rest k' loc' →
      Way d k loc (.down n :: rest) k' loc'
  | link {k loc n target rest k' loc'} : ¬ longestName < n.utf8ByteSize →
      d.node? (loc ++ [n]) = some (.link target) →
      Way d k (if (Path.mk target).isAbsolute then [] else loc)
        ((Path.mk target).steps ++ rest) k' loc' →
      Way d (k + 1) loc (.down n :: rest) k' loc'

variable {d : Disk} {loc loc' dest : Location} {k k' : Nat} {n : String} {steps more rest : List Step}

/-! ### Resolving, one step at a time -/

theorem resolve_congr {aim : Aim} {folder : Location}
    (h : d.follow aim loc steps = d.follow aim folder more) :
    d.resolve aim k loc steps = d.resolve aim k folder more := by
  cases hfollow : d.follow aim folder more with
  | ended result => rw [resolve_of_ended (h.trans hfollow), resolve_of_ended hfollow]
  | link folder' target rest =>
    cases k with
    | zero => rw [resolve_zero_of_link (h.trans hfollow), resolve_zero_of_link hfollow]
    | succ k => rw [resolve_succ_of_link (h.trans hfollow), resolve_succ_of_link hfollow]

theorem resolve_here : d.resolve .through k loc (.here :: rest) = d.resolve .through k loc rest :=
  resolve_congr rfl

theorem resolve_slash :
    d.resolve .through k loc (.slash :: rest) = d.resolve .through k loc rest :=
  resolve_congr rfl

theorem resolve_up :
    d.resolve .through k loc (.up :: rest) = d.resolve .through k loc.dropLast rest :=
  resolve_congr rfl

theorem resolve_nil : d.resolve .through k loc [] = .ok (.found loc) :=
  resolve_of_ended rfl

/-- A step by a name: what stands under the name decides how the way goes on. -/
theorem resolve_down :
    d.resolve .through k loc (.down n :: rest) =
      if longestName < n.utf8ByteSize then .error .nameTooLong
      else match d.node? (loc ++ [n]) with
        | none => arriveAbsent (loc ++ [n]) rest
        | some .folder => d.resolve .through k (loc ++ [n]) rest
        | some (.file ..) =>
          if rest = [] then .ok (.found (loc ++ [n])) else .error .notDirectory
        | some (.link target) => match k with
          | 0 => .error .tooManyLinks
          | k + 1 => d.resolve .through k (if (Path.mk target).isAbsolute then [] else loc)
              ((Path.mk target).steps ++ rest) := by
  by_cases hlong : longestName < n.utf8ByteSize
  · rw [if_pos hlong]
    exact resolve_of_ended (by simp [follow, hlong])
  · rw [if_neg hlong]
    cases hnode : d.node? (loc ++ [n]) with
    | none => exact resolve_of_ended (by simp [follow, hlong, hnode])
    | some node =>
      cases node with
      | folder => exact resolve_congr (by simp [follow, hlong, hnode])
      | file b t m => exact resolve_of_ended (by simp [follow, hlong, hnode])
      | link target =>
        have hfollow : d.follow .through loc (.down n :: rest) = .link loc ⟨target⟩ rest := by
          simp [follow, hlong, hnode]
        cases k with
        | zero => exact resolve_zero_of_link hfollow
        | succ k => exact resolve_succ_of_link hfollow

/-! ### Ways put together -/

theorem way_append : d.Way k loc (steps ++ more) k' loc' ↔
    ∃ k₁ loc₁, d.Way k loc steps k₁ loc₁ ∧ d.Way k₁ loc₁ more k' loc' := by
  constructor
  · intro h
    -- as for leading, the induction is on the whole list of steps
    generalize hall : steps ++ more = all at h
    induction h generalizing steps with
    | done =>
      obtain ⟨rfl, rfl⟩ := List.append_eq_nil_iff.1 hall
      exact ⟨_, _, .done, .done⟩
    | here h ih =>
      rcases List.append_eq_cons_iff.1 hall with ⟨rfl, rfl⟩ | ⟨steps, rfl, rfl⟩
      · exact ⟨_, _, .done, .here h⟩
      · obtain ⟨k₁, loc₁, h₁, h₂⟩ := ih rfl
        exact ⟨k₁, loc₁, .here h₁, h₂⟩
    | slash h ih =>
      rcases List.append_eq_cons_iff.1 hall with ⟨rfl, rfl⟩ | ⟨steps, rfl, rfl⟩
      · exact ⟨_, _, .done, .slash h⟩
      · obtain ⟨k₁, loc₁, h₁, h₂⟩ := ih rfl
        exact ⟨k₁, loc₁, .slash h₁, h₂⟩
    | up h ih =>
      rcases List.append_eq_cons_iff.1 hall with ⟨rfl, rfl⟩ | ⟨steps, rfl, rfl⟩
      · exact ⟨_, _, .done, .up h⟩
      · obtain ⟨k₁, loc₁, h₁, h₂⟩ := ih rfl
        exact ⟨k₁, loc₁, .up h₁, h₂⟩
    | down hshort hnode h ih =>
      rcases List.append_eq_cons_iff.1 hall with ⟨rfl, rfl⟩ | ⟨steps, rfl, rfl⟩
      · exact ⟨_, _, .done, .down hshort hnode h⟩
      · obtain ⟨k₁, loc₁, h₁, h₂⟩ := ih rfl
        exact ⟨k₁, loc₁, .down hshort hnode h₁, h₂⟩
    | link hshort hnode h ih =>
      rcases List.append_eq_cons_iff.1 hall with ⟨rfl, rfl⟩ | ⟨steps, rfl, rfl⟩
      · exact ⟨_, _, .done, .link hshort hnode h⟩
      · obtain ⟨k₁, loc₁, h₁, h₂⟩ := ih (by rw [List.append_assoc])
        exact ⟨k₁, loc₁, .link hshort hnode h₁, h₂⟩
  · rintro ⟨k₁, loc₁, h₁, h₂⟩
    induction h₁ with
    | done => exact h₂
    | here _ ih => exact .here (ih h₂)
    | slash _ ih => exact .slash (ih h₂)
    | up _ ih => exact .up (ih h₂)
    | down hshort hnode _ ih => exact .down hshort hnode (ih h₂)
    | link hshort hnode _ ih =>
      refine .link hshort hnode ?_
      have := ih h₂
      rwa [List.append_assoc] at this

/-- A way leads to a directory, if it starts in one. -/
theorem Way.folder (hd : d.WellFormed) (h : d.Way k loc steps k' loc')
    (hloc : d.node? loc = some .folder) : d.node? loc' = some .folder := by
  induction h with
  | done => exact hloc
  | here _ ih => exact ih hloc
  | slash _ ih => exact ih hloc
  | up _ ih => exact ih (hd.folder_dropLast hloc)
  | down _ hnode _ ih => exact ih hnode
  | link _ _ _ ih =>
    refine ih ?_
    split
    · exact node?_nil d
    · exact hloc

/-- Behind a way, resolving goes on from the directory that it leads to. -/
theorem Way.resolve_append (h : d.Way k loc steps k' loc') :
    d.resolve .through k loc (steps ++ more) = d.resolve .through k' loc' more := by
  induction h with
  | done => rfl
  | here _ ih => rw [List.cons_append, resolve_here, ih]
  | slash _ ih => rw [List.cons_append, resolve_slash, ih]
  | up _ ih => rw [List.cons_append, resolve_up, ih]
  | down hshort hnode _ ih =>
    rw [List.cons_append, resolve_down, if_neg hshort, hnode]
    exact ih
  | link hshort hnode _ ih =>
    rw [List.cons_append, resolve_down, if_neg hshort, hnode, ← ih, List.append_assoc]

/-- A way is what resolving finds. -/
theorem Way.resolve (h : d.Way k loc steps k' loc') :
    d.resolve .through k loc steps = .ok (.found loc') := by
  rw [← List.append_nil steps, h.resolve_append, resolve_nil]

/-- A way stays when the disk grows. -/
theorem Way.grows {d' : Disk} (hgrows : d.Grows d') (h : d.Way k loc steps k' loc') :
    d'.Way k loc steps k' loc' := by
  induction h with
  | done => exact .done
  | here _ ih => exact .here ih
  | slash _ ih => exact .slash ih
  | up _ ih => exact .up ih
  | down hshort hnode _ ih => exact .down hshort (hgrows.folder hnode) ih
  | link hshort hnode _ ih =>
    refine .link hshort ?_ ih
    exact link?_eq_some_iff.1 ((hgrows.links _).trans (link?_eq_some_iff.2 hnode))

/-- Where the same nodes stand below a location and none of them is a link, names resolve in the
same way. -/
theorem resolve_names_congr {d' : Disk} {names : List String}
    (hsame : ∀ more, d'.node? (loc ++ more) = d.node? (loc ++ more))
    (hfree : ∀ more, d.link? (loc ++ more) = none) :
    d'.resolve .through k loc (names.map .down) = d.resolve .through k loc (names.map .down) := by
  induction names generalizing loc with
  | nil => rw [List.map_nil, resolve_nil, resolve_nil]
  | cons n rest ih =>
    have hrest : d'.resolve .through k (loc ++ [n]) (rest.map .down) =
        d.resolve .through k (loc ++ [n]) (rest.map .down) :=
      ih (by simpa using fun more => hsame (n :: more))
        (by simpa using fun more => hfree (n :: more))
    rw [List.map_cons, resolve_down, resolve_down, hsame [n]]
    cases hnode : d.node? (loc ++ [n]) with
    | none => rfl
    | some node =>
      cases node with
      | folder => rw [hrest]
      | file b t m => rfl
      | link target =>
        have hlink := hfree [n]
        rw [link?_eq_some_iff.2 hnode] at hlink
        cases hlink

/-- What is found behind a last name stands under this name in the directory that the other
steps lead to. -/
theorem exists_way_of_resolve (h : d.resolve .through k loc (steps ++ [.down n]) = .ok (.found dest)) :
    ∃ k' loc', d.Way k loc steps k' loc' ∧
      d.resolve .through k' loc' [.down n] = .ok (.found dest) := by
  -- along the steps, and through the links first, whose targets are read in their places
  induction k using Nat.strongRecOn generalizing loc steps with
  | ind k ihk =>
    induction steps generalizing loc with
    | nil => exact ⟨_, _, .done, h⟩
    | cons step rest ih =>
      rw [List.cons_append] at h
      cases step with
      | here =>
        obtain ⟨k', loc', hway, hend⟩ := ih (by rwa [resolve_here] at h)
        exact ⟨k', loc', .here hway, hend⟩
      | slash =>
        obtain ⟨k', loc', hway, hend⟩ := ih (by rwa [resolve_slash] at h)
        exact ⟨k', loc', .slash hway, hend⟩
      | up =>
        obtain ⟨k', loc', hway, hend⟩ := ih (by rwa [resolve_up] at h)
        exact ⟨k', loc', .up hway, hend⟩
      | down m =>
        rw [resolve_down] at h
        split at h
        · cases h
        · next hshort =>
          split at h
          · have harrival := (location_of_arriveAbsent h).1
            cases harrival
          · next hnode =>
            obtain ⟨k', loc', hway, hend⟩ := ih h
            exact ⟨k', loc', .down hshort hnode hway, hend⟩
          · simp at h
          · next target hnode =>
            cases k with
            | zero => cases h
            | succ k =>
              -- the last name stays last behind the target of the link
              dsimp only at h
              rw [← List.append_assoc] at h
              obtain ⟨k', loc', hway, hend⟩ := ihk k (Nat.lt_succ_self k) h
              exact ⟨k', loc', .link hshort hnode hway, hend⟩

/-! ### What is used up -/

theorem Way.links_le (h : d.Way k loc steps k' loc') : k' ≤ k := by
  induction h with
  | done => exact Nat.le_refl _
  | here _ ih => exact ih
  | slash _ ih => exact ih
  | up _ ih => exact ih
  | down _ _ _ ih => exact ih
  | link _ _ _ ih => exact Nat.le_succ_of_le ih

theorem length_le_depth (h : d.node? loc ≠ none) : loc.length ≤ d.depth := by
  by_cases hloc : loc = []
  · simp [hloc]
  · obtain ⟨entry, hmem, rfl⟩ := (node?_ne_none_iff hloc).1 h
    rw [depth, ← List.foldr_eq_foldl]
    exact List.le_max_of_le' 0 (List.mem_map.2 ⟨entry, hmem, rfl⟩) (Nat.le_refl _)

/-- How far a way has come: the links it has used, each worth more than the depth of the disk,
and the depth at which it is now. -/
def gain (d : Disk) (k : Nat) (loc : Location) : Nat :=
  (mostLinks - k) * (d.depth + 1) + loc.length

/-- Every step by a name gains something. -/
theorem gain_lt_of_way (hloc : d.node? loc ≠ none) (hk : k ≤ mostLinks)
    (h : d.Way k loc [.down n] k' loc') : d.gain k loc < d.gain k' loc' := by
  cases h with
  | down _ _ hrest =>
    cases hrest
    simp only [gain, List.length_append, List.length_singleton]
    omega
  | @link k _ _ target _ _ _ _ _ hrest =>
    -- a link is worth the depth of the disk and one more, wherever its target leads
    have hlinks := hrest.links_le
    have hdepth := length_le_depth hloc
    have hused : mostLinks - (k + 1) + 1 ≤ mostLinks - k' := by omega
    have := Nat.mul_le_mul_right (d.depth + 1) hused
    rw [Nat.succ_mul] at this
    simp only [gain]
    omega

theorem gain_lt_walkBound (hloc : d.node? loc ≠ none) : d.gain k loc < d.walkBound := by
  have hdepth := length_le_depth hloc
  have := Nat.mul_le_mul_right (d.depth + 1) (Nat.sub_le mostLinks k)
  rw [walkBound, Nat.succ_mul, gain]
  omega

end GemCourier.Disk
