/-
GemCourier/Proofs/Disk/Meeting.lean

The places that a path comes by.

What is found by a path depends on the places that looking it up comes by, and
on nothing else on the disk.  `Meets` runs along the components of a path as
leading does, and says at which locations it comes by on the way, behind links
too.  Where only files have changed at any of them, the path finds what it found
at the same location (`AlikeBut.find`), and where nothing has, it finds the same.

Main results: `AlikeBut.find`, `node_of_unmet`, `meets_names`.
-/
import GemCourier.Proofs.Disk.Deeds
import GemCourier.Proofs.Disk.Ways

namespace GemCourier

/-- The kind of a node, which is all that is left of a file. -/
def Node.kind : Node → Node
  | .file .. => .file .empty 0 0
  | .folder => .folder
  | .link target => .link target

namespace Disk

/-- `d.Meets loc cs met`: the way along the components from the location `loc` comes by the
location `met`. -/
inductive Meets (d : Disk) : Location → List Component → Location → Prop
  | stop {loc cs} : Meets d loc cs loc
  | root {loc rest met} : Meets d [] rest met → Meets d loc (.root :: rest) met
  | here {loc rest met} : Meets d loc rest met → Meets d loc (.here :: rest) met
  | up {loc rest met} : Meets d loc.dropLast rest met → Meets d loc (.up :: rest) met
  | name {loc n rest met} : d.link? (loc ++ [n]) = none →
      Meets d (loc ++ [n]) rest met → Meets d loc (.name n :: rest) met
  | link {loc n target rest met} : d.link? (loc ++ [n]) = some target →
      Meets d loc ((Path.mk target).components ++ rest) met → Meets d loc (.name n :: rest) met

/-- The path comes by a place at which something else stands on the second disk. -/
def MeetsChange (d d' : Disk) (p : Path) : Prop :=
  ∃ met, d.Meets d.start p.components met ∧ d'.node? met ≠ d.node? met

/-- Looking the path up comes by none of the places. -/
def Avoids (d : Disk) (p : Path) (places : Location → Prop) : Prop :=
  ∀ met, d.Meets (d.origin p) p.components met → ¬ places met

/-- The two disks have the same links, and nodes of the same kinds but at some places. -/
structure AlikeBut (places : Location → Prop) (d d' : Disk) : Prop where
  start : d'.start = d.start
  links : ∀ loc, d'.link? loc = d.link? loc
  kinds : ∀ loc, ¬ places loc → (d'.node? loc).map Node.kind = (d.node? loc).map Node.kind

variable {d d' : Disk} {loc base dest met : Location} {cs ds rest : List Component} {p q : Path}
  {steps : List Step} {k : Nat} {places : Location → Prop}

/-- Leading comes by where it leads. -/
theorem Leads.meets (h : d.Leads loc cs dest) : d.Meets loc cs dest := by
  induction h with
  | done loc => exact .stop
  | root _ ih => exact .root ih
  | here _ ih => exact .here ih
  | up _ ih => exact .up ih
  | name hlink _ ih => exact .name hlink ih
  | link hlink _ ih => exact .link hlink ih

/-- What a way comes by depends on the symbolic links alone. -/
theorem Meets.congr (hlinks : ∀ loc, d'.link? loc = d.link? loc) (h : d.Meets loc cs met) :
    d'.Meets loc cs met := by
  induction h with
  | stop => exact .stop
  | root _ ih => exact .root ih
  | here _ ih => exact .here ih
  | up _ ih => exact .up ih
  | name hlink _ ih => exact .name (by rw [hlinks, hlink]) ih
  | link hlink _ ih => exact .link (by rw [hlinks, hlink]) ih

/-- What a way comes by is met on every longer way. -/
theorem Meets.append (h : d.Meets loc cs met) (ds : List Component) :
    d.Meets loc (cs ++ ds) met := by
  induction h with
  | stop => exact .stop
  | root _ ih => exact .root ih
  | here _ ih => exact .here ih
  | up _ ih => exact .up ih
  | name hlink _ ih => exact .name hlink ih
  | link hlink _ ih =>
    refine .link hlink ?_
    rwa [List.append_assoc] at ih

/-- A way along two lists of components comes by the places of the first, or of the second from
where the first one leads. -/
theorem Meets.of_append (h : d.Meets loc (cs ++ ds) met) :
    d.Meets loc cs met ∨ ∃ mid, d.Leads loc cs mid ∧ d.Meets mid ds met := by
  -- as for leading, the induction is on the whole list
  generalize hall : cs ++ ds = all at h
  induction h generalizing cs with
  | stop => exact Or.inl .stop
  | root h ih =>
    rcases List.append_eq_cons_iff.1 hall with ⟨rfl, rfl⟩ | ⟨cs, rfl, rfl⟩
    · exact Or.inr ⟨_, .done _, .root h⟩
    · exact (ih rfl).imp .root fun ⟨mid, hmid, hmeets⟩ => ⟨mid, .root hmid, hmeets⟩
  | here h ih =>
    rcases List.append_eq_cons_iff.1 hall with ⟨rfl, rfl⟩ | ⟨cs, rfl, rfl⟩
    · exact Or.inr ⟨_, .done _, .here h⟩
    · exact (ih rfl).imp .here fun ⟨mid, hmid, hmeets⟩ => ⟨mid, .here hmid, hmeets⟩
  | up h ih =>
    rcases List.append_eq_cons_iff.1 hall with ⟨rfl, rfl⟩ | ⟨cs, rfl, rfl⟩
    · exact Or.inr ⟨_, .done _, .up h⟩
    · exact (ih rfl).imp .up fun ⟨mid, hmid, hmeets⟩ => ⟨mid, .up hmid, hmeets⟩
  | name hlink h ih =>
    rcases List.append_eq_cons_iff.1 hall with ⟨rfl, rfl⟩ | ⟨cs, rfl, rfl⟩
    · exact Or.inr ⟨_, .done _, .name hlink h⟩
    · exact (ih rfl).imp (.name hlink) fun ⟨mid, hmid, hmeets⟩ => ⟨mid, .name hlink hmid, hmeets⟩
  | link hlink h ih =>
    rcases List.append_eq_cons_iff.1 hall with ⟨rfl, rfl⟩ | ⟨cs, rfl, rfl⟩
    · exact Or.inr ⟨_, .done _, .link hlink h⟩
    · exact (ih (List.append_assoc ..)).imp (.link hlink)
        fun ⟨mid, hmid, hmeets⟩ => ⟨mid, .link hlink hmid, hmeets⟩

/-- A path comes by the places that its steps come by, and by where it is read from. -/
theorem meets_components_iff :
    d.Meets loc (p.components ++ rest) met ↔
      met = loc ∨ d.Meets (if p.isAbsolute then [] else loc)
        (p.steps.filterMap Step.component? ++ rest) met := by
  obtain ⟨front, hcomponents, hfront⟩ := p.exists_components_eq_steps
  rw [hcomponents, List.append_assoc]
  have hstop : ∀ {cs}, met = loc → d.Meets loc cs met := by
    rintro cs rfl
    exact .stop
  rcases hfront with ⟨rfl, habsolute⟩ | ⟨rfl, habsolute⟩ | ⟨rfl, habsolute⟩
  · rw [habsolute, if_pos rfl]
    refine ⟨fun h => ?_, fun h => h.elim hstop .root⟩
    cases h with
    | stop => exact Or.inl rfl
    | root h => exact Or.inr h
  · rw [habsolute, if_neg Bool.false_ne_true]
    refine ⟨fun h => ?_, fun h => h.elim hstop .here⟩
    cases h with
    | stop => exact Or.inl rfl
    | here h => exact Or.inr h
  · rw [habsolute, if_neg Bool.false_ne_true]
    exact ⟨Or.inr, fun h => h.elim hstop id⟩

theorem Meets.of_steps
    (h : d.Meets (if p.isAbsolute then [] else loc)
      (p.steps.filterMap Step.component? ++ rest) met) :
    d.Meets loc (p.components ++ rest) met :=
  meets_components_iff.2 (Or.inr h)

theorem ite_origin (d : Disk) (p : Path) :
    (if p.isAbsolute then [] else d.origin p) = d.origin p := by
  rw [origin]
  split <;> rfl

/-- Where it is read from, a path comes by the places that its steps come by. -/
theorem meets_origin_iff : d.Meets (d.origin p) p.components met ↔
    d.Meets (d.origin p) (p.steps.filterMap Step.component?) met := by
  rw [← List.append_nil p.components, meets_components_iff, ite_origin, List.append_nil]
  refine or_iff_right_of_imp ?_
  rintro rfl
  exact .stop

/-- What looking a path up comes by is met from the start of the disk. -/
theorem Meets.of_origin (h : d.Meets (d.origin p) p.components met) :
    d.Meets d.start p.components met := by
  rw [meets_origin_iff, origin] at h
  rw [← List.append_nil p.components]
  exact .of_steps (by rwa [List.append_nil])

/-- What looking a path up comes by depends on the links and the start of the disk. -/
theorem Meets.origin_congr (hstart : d'.start = d.start)
    (hlinks : ∀ loc, d'.link? loc = d.link? loc)
    (h : d.Meets (d.origin p) p.components met) : d'.Meets (d'.origin p) p.components met := by
  have horigin : d'.origin p = d.origin p := by rw [origin, origin, hstart]
  exact horigin ▸ h.congr hlinks

/-- Where it is read from, a path leads where it leads from the start of the disk. -/
theorem leads_origin_iff : d.Leads (d.origin p) p.components dest ↔ d.Reaches p dest := by
  rw [Reaches, leads_components, leads_components, ite_origin, origin]

/-- A way up to a link comes by what is met behind the link. -/
theorem Meets.of_follow_link {aim : Aim} {folder : Location} {target : Path} {more : List Step}
    (h : d.follow aim loc steps = .link folder target more)
    (hmeets : d.Meets folder (target.components ++ more.filterMap Step.component?) met) :
    d.Meets loc (steps.filterMap Step.component?) met := by
  induction steps generalizing loc with
  | nil => simp [follow] at h
  | cons step rest ih =>
    cases step with
    | here => exact ih h
    | slash => exact ih h
    | up => exact .up (ih h)
    | down n =>
      simp only [follow] at h
      split at h
      · cases h
      · split at h
        · cases h
        · split at h
          · cases h
          · next hnode => exact .name (by simp [link?, hnode]) (ih h)
          · cases h
          · next text hnode =>
            split at h
            · cases h
            · cases h
              exact .link (link?_eq_some_iff.2 hnode) hmeets

/-- Along names with no links among them, the way comes by the places of these names. -/
theorem meets_names {names : List String} (hfree : ∀ ns, d.link? (base ++ ns) = none)
    (h : d.Meets base (names.map .name) met) : ∃ front, front <+: names ∧ met = base ++ front := by
  induction names generalizing base with
  | nil =>
    cases h
    exact ⟨[], List.prefix_rfl, by simp⟩
  | cons n rest ih =>
    cases h with
    | stop => exact ⟨[], List.nil_prefix, by simp⟩
    | name _ h =>
      have hfree' : ∀ ns, d.link? (base ++ [n] ++ ns) = none := fun ns => by
        rw [List.append_assoc]
        exact hfree _
      obtain ⟨front, hfront, rfl⟩ := ih hfree' h
      exact ⟨n :: front, List.cons_prefix_cons.2 ⟨rfl, hfront⟩, by simp⟩
    | link hsome _ =>
      rw [hfree [n]] at hsome
      cases hsome

/-! ### Looking up where nothing has changed -/

/-- What stands off the places. -/
theorem AlikeBut.node?_cases (h : AlikeBut places d d') (hloc : ¬ places loc) :
    (d.node? loc = none ∧ d'.node? loc = none) ∨
      (d.node? loc = some .folder ∧ d'.node? loc = some .folder) ∨
      (∃ target, d.node? loc = some (.link target) ∧ d'.node? loc = some (.link target)) ∨
      ∃ b t m b' t' m', d.node? loc = some (.file b t m) ∧
        d'.node? loc = some (.file b' t' m') := by
  have hkind := h.kinds loc hloc
  cases hnode : d.node? loc with
  | none =>
    rw [hnode] at hkind
    exact Or.inl ⟨rfl, Option.map_eq_none_iff.1 hkind⟩
  | some node =>
    rw [hnode] at hkind
    obtain ⟨node', hnode', hsame⟩ := Option.map_eq_some_iff.1 hkind
    cases node <;> cases node' <;> cases hsame <;> simp [hnode']

theorem AlikeBut.follow (h : AlikeBut places d d')
    (havoids : ∀ met, d.Meets loc (steps.filterMap Step.component?) met → ¬ places met)
    (aim : Aim) : d'.follow aim loc steps = d.follow aim loc steps := by
  induction steps generalizing loc with
  | nil => rfl
  | cons step rest ih =>
    cases step with
    | here => exact ih havoids
    | slash => exact ih havoids
    | up => exact ih fun met hmet => havoids met (.up hmet)
    | down n =>
      rw [Disk.follow, Disk.follow]
      cases hlink : d.link? (loc ++ [n]) with
      | some target =>
        rw [link?_eq_some_iff.1 hlink, link?_eq_some_iff.1 ((h.links _).trans hlink)]
      | none =>
        have hrest := ih fun met hmet => havoids met (.name hlink hmet)
        rcases h.node?_cases (havoids _ (.name hlink .stop)) with
          ⟨hd, hd'⟩ | ⟨hd, hd'⟩ | ⟨target, hd, hd'⟩ | ⟨b, t, m, b', t', m', hd, hd'⟩
        · rw [hd, hd']
        · simp only [hd, hd', hrest]
        · rw [hd, hd']
        · rw [hd, hd']

theorem AlikeBut.resolve (h : AlikeBut places d d')
    (havoids : ∀ met, d.Meets loc (steps.filterMap Step.component?) met → ¬ places met)
    (aim : Aim) (k : Nat) : d'.resolve aim k loc steps = d.resolve aim k loc steps := by
  -- on the links, of which one is used up from stretch to stretch
  induction k generalizing loc steps with
  | zero =>
    have hsame := h.follow havoids aim
    cases hfollow : d.follow aim loc steps with
    | ended result => rw [resolve_of_ended hfollow, resolve_of_ended (hsame.trans hfollow)]
    | link folder target rest =>
      rw [resolve_zero_of_link hfollow, resolve_zero_of_link (hsame.trans hfollow)]
  | succ k ih =>
    have hsame := h.follow havoids aim
    cases hfollow : d.follow aim loc steps with
    | ended result => rw [resolve_of_ended hfollow, resolve_of_ended (hsame.trans hfollow)]
    | link folder target rest =>
      rw [resolve_succ_of_link hfollow, resolve_succ_of_link (hsame.trans hfollow)]
      refine ih fun met hmet => havoids met (.of_follow_link hfollow (.of_steps ?_))
      rwa [List.filterMap_append] at hmet

/-- A path that avoids the places is found on both disks alike, whatever for. -/
theorem AlikeBut.find (h : AlikeBut places d d') (havoids : d.Avoids p places) (aim : Aim) :
    d'.find aim p = d.find aim p := by
  have hresolve : d'.resolve aim mostLinks (d.origin p) p.steps =
      d.resolve aim mostLinks (d.origin p) p.steps :=
    h.resolve (fun met hmet => havoids met (meets_origin_iff.2 hmet)) aim mostLinks
  rw [Disk.find, Disk.find, walk, walk, h.start]
  by_cases habsolute : p.isAbsolute = true
  · rw [origin, if_pos habsolute] at hresolve
    rw [if_pos habsolute, if_pos habsolute, hresolve]
  · have hstart : d'.node? d.start = some .folder ↔ d.node? d.start = some .folder := by
      have hloc : ¬ places d.start := havoids _ (by rw [origin, if_neg habsolute]; exact .stop)
      rcases h.node?_cases hloc with
        ⟨hd, hd'⟩ | ⟨hd, hd'⟩ | ⟨target, hd, hd'⟩ | ⟨b, t, m, b', t', m', hd, hd'⟩ <;>
        simp [hd, hd']
    rw [origin, if_neg habsolute] at hresolve
    simp only [if_neg habsolute, hstart, hresolve]

/-- A path that comes by no change finds what it found. -/
theorem node_of_unmet (hgrows : d.Grows d') (hunmet : ¬ d.MeetsChange d' p) :
    d'.node p = d.node p := by
  have hsame : ∀ met, d.Meets d.start p.components met → d'.node? met = d.node? met :=
    fun met hmet => by_contra fun hne => hunmet ⟨met, hmet, hne⟩
  have halike : AlikeBut (fun loc => d'.node? loc ≠ d.node? loc) d d' :=
    ⟨hgrows.start, hgrows.links, fun loc hloc => by rw [not_not.1 hloc]⟩
  have hfind : d'.find .through p = d.find .through p :=
    halike.find (fun met hmet => not_not.2 (hsame met hmet.of_origin)) _
  rw [node, node, lookUp, lookUp, hfind]
  cases hat : d.find .through p with
  | error fault => rfl
  | ok arrival =>
    cases arrival with
    | absent loc => rfl
    | found loc =>
      have hreaches : d.Reaches p loc := reaches_of_find (Or.inl (by simp)) hat
      dsimp only
      rw [hsame loc hreaches.meets]

end Disk

end GemCourier
