/-
GemCourier/Proofs/Disk/Leading.lean

Where a path leads, apart from what exists.

`Leads` reads the components of a path against the symbolic links of a disk
alone: a name goes one location further unless a link stands there, in which
case the target of the link is read in its place.  What is missing on the way is
passed over as if it were there.  Three things follow from looking at links
only.

* A path leads to one location at most (`Leads.unique`).
* What the program does to a disk never makes or removes a link, so a path leads
  to the same location before, during and after (`Leads.congr`).
* Whenever the disk resolves a path, the path leads to the location it resolves
  to (`reaches_of_find`), so all locations that are read or changed can be told
  from the paths that were used.

Resolving goes in stretches from one link to the next (`Resolves`), which is
what everything about found paths is proved by.
-/
import GemCourier.Proofs.Path.Joining
import GemCourier.Disk.Operations

namespace GemCourier

/-! ### Steps and components -/

/-- The component that a step along a path stands for, if it moves at all. -/
def Step.component? : Step → Option Component
  | .here => none
  | .slash => none
  | .up => some .up
  | .down n => some (.name n)

/-- A step that moves is known by the component it stands for. -/
theorem Step.eq_of_component? {step other : Step} {c : Component} (h : step.component? = some c)
    (hother : other.component? = some c) : step = other := by
  cases step <;> cases h <;> cases other <;> cases hother <;> rfl

theorem Step.component?_ofPiece? (piece : String) :
    (Step.ofPiece? piece).bind component? = Component.ofPiece? piece := by
  by_cases hempty : piece = ""
  · simp [Step.ofPiece?, Component.ofPiece?, hempty]
  · by_cases hhere : piece = "."
    · simp [Step.ofPiece?, Component.ofPiece?, hhere, component?]
    · by_cases hup : piece = ".."
      · simp [Step.ofPiece?, Component.ofPiece?, hup, component?]
      · simp [Step.ofPiece?, Component.ofPiece?, hempty, hhere, hup, component?]

theorem Path.filterMap_steps (p : Path) :
    p.steps.filterMap Step.component? = p.pieces.filterMap Component.ofPiece? := by
  rw [steps, List.filterMap_append, List.filterMap_filterMap]
  simp only [Step.component?_ofPiece?]
  split <;> simp [Step.component?]

/-- The components of a path are those of its steps, behind the root of an absolute path or the
`.` that a relative path opens with. -/
theorem Path.exists_components_eq_steps (p : Path) :
    ∃ front, p.components = front ++ p.steps.filterMap Step.component? ∧
      (front = [.root] ∧ p.isAbsolute = true ∨ front = [.here] ∧ p.isAbsolute = false ∨
        front = [] ∧ p.isAbsolute = false) := by
  obtain ⟨first, rest, hpieces⟩ := List.exists_cons_of_ne_nil p.pieces_ne_nil
  rw [components_eq hpieces, filterMap_steps, hpieces]
  by_cases habsolute : p.isAbsolute = true
  · -- nothing stands before the slash of the root
    have hfirst : Component.ofPiece? first = none := by
      obtain ⟨text⟩ := p
      obtain ⟨body, hbody⟩ : ∃ body, text.toList = '/' :: body := by
        rw [isAbsolute, beq_iff_eq] at habsolute
        exact List.head?_eq_some_iff.1 habsolute
      have : (Path.mk text).pieces.head? = some "" := by
        simp [pieces, Text.split, hbody, Text.pieces]
      rw [hpieces, List.head?_cons, Option.some.injEq] at this
      simp [this, Component.ofPiece?]
    rw [List.filterMap_cons_none hfirst]
    exact ⟨[.root], by simp [leading?, habsolute], Or.inl ⟨rfl, habsolute⟩⟩
  · have hrelative : p.isAbsolute = false := by simpa using habsolute
    by_cases hhere : first = "."
    · rw [hhere, List.filterMap_cons_none (by decide)]
      exact ⟨[.here], by simp [leading?, hrelative], Or.inr (Or.inl ⟨rfl, hrelative⟩)⟩
    · refine ⟨[], ?_, Or.inr (Or.inr ⟨rfl, hrelative⟩)⟩
      cases h : Component.ofPiece? first <;> simp [leading?, hrelative, hhere, h]

/-- The location at which a way ends. -/
def Arrival.location : Arrival → Location
  | .found loc => loc
  | .absent loc => loc

namespace Disk

/-- The target of the symbolic link at a location, if one stands there. -/
def link? (d : Disk) (loc : Location) : Option String :=
  match d.node? loc with
  | some (.link target) => some target
  | _ => none

theorem link?_eq_some_iff {d : Disk} {loc : Location} {target : String} :
    d.link? loc = some target ↔ d.node? loc = some (.link target) := by
  unfold link?
  split
  · next t h => simp [h]
  · next h => exact ⟨fun e => by simp at e, fun e => absurd e (h target)⟩

/-! ### Leading -/

/-- `d.Leads loc cs dest`: read from the location `loc`, the components `cs` lead to `dest`,
once every directory that is missing on the way is there. -/
inductive Leads (d : Disk) : Location → List Component → Location → Prop
  | done (loc : Location) : Leads d loc [] loc
  | root {loc rest dest} : Leads d [] rest dest → Leads d loc (.root :: rest) dest
  | here {loc rest dest} : Leads d loc rest dest → Leads d loc (.here :: rest) dest
  | up {loc rest dest} : Leads d loc.dropLast rest dest → Leads d loc (.up :: rest) dest
  | name {loc n rest dest} : d.link? (loc ++ [n]) = none →
      Leads d (loc ++ [n]) rest dest → Leads d loc (.name n :: rest) dest
  | link {loc n target rest dest} : d.link? (loc ++ [n]) = some target →
      Leads d loc ((Path.mk target).components ++ rest) dest → Leads d loc (.name n :: rest) dest

/-- `d.Reaches p dest`: the path `p` leads to the location `dest`. -/
def Reaches (d : Disk) (p : Path) (dest : Location) : Prop :=
  d.Leads d.start p.components dest

/-- No symbolic link stands at or below the location that the path leads to. -/
def LinkFreeBelow (d : Disk) (p : Path) : Prop :=
  ∀ base, d.Reaches p base → ∀ names, d.link? (base ++ names) = none

variable {d d' : Disk} {loc base dest : Location} {cs : List Component}

theorem Leads.unique {dest' : Location} (h : d.Leads loc cs dest) (h' : d.Leads loc cs dest') :
    dest = dest' := by
  induction h with
  | done loc => cases h'; rfl
  | root _ ih => cases h' with | root h' => exact ih h'
  | here _ ih => cases h' with | here h' => exact ih h'
  | up _ ih => cases h' with | up h' => exact ih h'
  | name hnone _ ih =>
    cases h' with
    | name _ h' => exact ih h'
    | link hsome _ => rw [hnone] at hsome; cases hsome
  | link hsome _ ih =>
    cases h' with
    | name hnone _ => rw [hsome] at hnone; cases hnone
    | link hsome' h' =>
      rw [hsome] at hsome'
      cases hsome'
      exact ih h'

/-- Leading depends on the symbolic links alone. -/
theorem Leads.congr (hlinks : ∀ loc, d'.link? loc = d.link? loc) (h : d.Leads loc cs dest) :
    d'.Leads loc cs dest := by
  induction h with
  | done loc => exact .done loc
  | root _ ih => exact .root ih
  | here _ ih => exact .here ih
  | up _ ih => exact .up ih
  | name hnone _ ih => exact .name (by rw [hlinks, hnone]) ih
  | link hsome _ ih => exact .link (by rw [hlinks, hsome]) ih

/-- Leading along one list of components and then along another. -/
theorem leads_append {ds : List Component} :
    d.Leads loc (cs ++ ds) dest ↔ ∃ mid, d.Leads loc cs mid ∧ d.Leads mid ds dest := by
  constructor
  · intro h
    -- `cs ++ ds` is no variable, so the induction is on a list that it equals
    generalize hall : cs ++ ds = all at h
    induction h generalizing cs with
    | done loc =>
      obtain ⟨rfl, rfl⟩ := List.append_eq_nil_iff.1 hall
      exact ⟨loc, .done loc, .done loc⟩
    | root h ih =>
      rcases List.append_eq_cons_iff.1 hall with ⟨rfl, rfl⟩ | ⟨cs, rfl, rfl⟩
      · exact ⟨_, .done _, .root h⟩
      · obtain ⟨mid, h₁, h₂⟩ := ih rfl
        exact ⟨mid, .root h₁, h₂⟩
    | here h ih =>
      rcases List.append_eq_cons_iff.1 hall with ⟨rfl, rfl⟩ | ⟨cs, rfl, rfl⟩
      · exact ⟨_, .done _, .here h⟩
      · obtain ⟨mid, h₁, h₂⟩ := ih rfl
        exact ⟨mid, .here h₁, h₂⟩
    | up h ih =>
      rcases List.append_eq_cons_iff.1 hall with ⟨rfl, rfl⟩ | ⟨cs, rfl, rfl⟩
      · exact ⟨_, .done _, .up h⟩
      · obtain ⟨mid, h₁, h₂⟩ := ih rfl
        exact ⟨mid, .up h₁, h₂⟩
    | name hnone h ih =>
      rcases List.append_eq_cons_iff.1 hall with ⟨rfl, rfl⟩ | ⟨cs, rfl, rfl⟩
      · exact ⟨_, .done _, .name hnone h⟩
      · obtain ⟨mid, h₁, h₂⟩ := ih rfl
        exact ⟨mid, .name hnone h₁, h₂⟩
    | link hsome h ih =>
      rcases List.append_eq_cons_iff.1 hall with ⟨rfl, rfl⟩ | ⟨cs, rfl, rfl⟩
      · exact ⟨_, .done _, .link hsome h⟩
      · -- the target of the link is read before what is left of the first list
        obtain ⟨mid, h₁, h₂⟩ := ih (by rw [List.append_assoc])
        exact ⟨mid, .link hsome h₁, h₂⟩
  · rintro ⟨mid, h₁, h₂⟩
    induction h₁ with
    | done loc => exact h₂
    | root _ ih => exact .root (ih h₂)
    | here _ ih => exact .here (ih h₂)
    | up _ ih => exact .up (ih h₂)
    | name hnone _ ih => exact .name hnone (ih h₂)
    | link hsome _ ih =>
      refine .link hsome ?_
      have := ih h₂
      rwa [List.append_assoc] at this

/-- Where components lead from a location if there are no links. -/
def landing (loc : Location) : List Component → Location
  | [] => loc
  | .root :: rest => landing [] rest
  | .here :: rest => landing loc rest
  | .up :: rest => landing loc.dropLast rest
  | .name n :: rest => landing (loc ++ [n]) rest

theorem landing_append (loc : Location) (cs ds : List Component) :
    landing loc (cs ++ ds) = landing (landing loc cs) ds := by
  induction cs generalizing loc with
  | nil => rfl
  | cons c rest ih => cases c <;> exact ih _

theorem leads_landing (hfree : ∀ loc, d.link? loc = none) (loc : Location) (cs : List Component) :
    d.Leads loc cs (landing loc cs) := by
  induction cs generalizing loc with
  | nil => exact .done loc
  | cons c rest ih =>
    cases c with
    | root => exact .root (ih _)
    | here => exact .here (ih _)
    | up => exact .up (ih _)
    | name n => exact .name (hfree _) (ih _)

theorem reaches_iff_landing {p : Path} (hfree : ∀ loc, d.link? loc = none) :
    d.Reaches p loc ↔ loc = landing d.start p.components := by
  constructor
  · exact fun h => h.unique (leads_landing hfree _ _)
  · rintro rfl
    exact leads_landing hfree _ _

/-- Where no link stands below a location, names lead straight down from it. -/
theorem leads_names (names : List String) (hfree : ∀ ns, d.link? (base ++ ns) = none) :
    d.Leads base (names.map .name) dest ↔ dest = base ++ names := by
  induction names generalizing base with
  | nil =>
    rw [List.map_nil, List.append_nil]
    constructor
    · intro h
      cases h
      rfl
    · rintro rfl
      exact .done dest
  | cons n rest ih =>
    have hfree' : ∀ ns, d.link? (base ++ [n] ++ ns) = none := fun ns => by
      rw [List.append_assoc]
      exact hfree _
    rw [List.append_cons, ← ih hfree']
    constructor
    · intro h
      cases h with
      | name _ h => exact h
      | link hsome _ => rw [hfree [n]] at hsome; cases hsome
    · exact fun h => .name (hfree [n]) h

/-- Where no link stands below a path, the path continued by names leads below where it leads. -/
theorem reaches_below {p root : Path} {names : List String} (hfree : d.LinkFreeBelow root)
    (hp : p.components = root.components ++ names.map .name) :
    d.Reaches p dest ↔ ∃ base, d.Reaches root base ∧ dest = base ++ names := by
  rw [Reaches, hp, leads_append]
  constructor
  · rintro ⟨base, hbase, hnames⟩
    exact ⟨base, hbase, (leads_names _ (hfree base hbase)).1 hnames⟩
  · rintro ⟨base, hbase, hdest⟩
    exact ⟨base, hbase, (leads_names _ (hfree base hbase)).2 hdest⟩

/-- Where no link stands below a path, what it is continued by can be told from where that
leads. -/
theorem names_unique {p q root : Path} {names others : List String} (hfree : d.LinkFreeBelow root)
    (hp : p.components = root.components ++ names.map .name)
    (hq : q.components = root.components ++ others.map .name) (h : d.Reaches p dest)
    (h' : d.Reaches q dest) : names = others := by
  obtain ⟨base, hbase, hdest⟩ := (reaches_below hfree hp).1 h
  obtain ⟨base', hbase', hdest'⟩ := (reaches_below hfree hq).1 h'
  obtain rfl := hbase.unique hbase'
  exact List.append_cancel_left (hdest.symm.trans hdest')

/-- A path is read from the root, if it is absolute, along the components of its steps. -/
theorem leads_components {p : Path} :
    d.Leads loc p.components dest ↔
      d.Leads (if p.isAbsolute then [] else loc) (p.steps.filterMap Step.component?) dest := by
  obtain ⟨front, hcomponents, hfront⟩ := p.exists_components_eq_steps
  rw [hcomponents]
  rcases hfront with ⟨rfl, habsolute⟩ | ⟨rfl, habsolute⟩ | ⟨rfl, habsolute⟩
  · rw [habsolute, if_pos rfl]
    constructor
    · intro h
      cases h with | root h => exact h
    · exact .root
  · rw [habsolute, if_neg Bool.false_ne_true]
    constructor
    · intro h
      cases h with | here h => exact h
    · exact .here
  · rw [habsolute, if_neg Bool.false_ne_true, List.nil_append]

/-! ### Resolving leads there -/

variable {aim : Aim} {folder : Location} {steps : List Step} {arrival : Arrival}

theorem location_of_arriveAbsent {rest : List Step} (h : arriveAbsent loc rest = .ok arrival) :
    arrival = .absent loc ∧ rest.filterMap Step.component? = [] := by
  unfold arriveAbsent at h
  split at h
  · next hrest =>
    cases h
    rcases hrest with rfl | rfl <;> exact ⟨rfl, rfl⟩
  · cases h

/-- A way that ends before a link leads to its end. -/
theorem leads_of_follow (haim : aim ≠ .itself ∨ ∃ loc, arrival = .absent loc)
    (h : d.follow aim folder steps = .ended (.ok arrival)) :
    d.Leads folder (steps.filterMap Step.component?) arrival.location := by
  induction steps generalizing folder with
  | nil =>
    simp only [follow, Stretch.ended.injEq, Except.ok.injEq] at h
    subst h
    exact .done folder
  | cons step rest ih =>
    cases step with
    | here => exact ih h
    | slash => exact ih h
    | up => exact .up (ih h)
    | down n =>
      have hname : d.link? (folder ++ [n]) = none →
          d.Leads (folder ++ [n]) (rest.filterMap Step.component?) arrival.location →
          d.Leads folder ((Step.down n :: rest).filterMap Step.component?) arrival.location :=
        fun hnone hrest => .name hnone hrest
      simp only [follow] at h
      split at h
      · cases h
      · split at h
        · cases h
        · split at h
          · next hnode =>
            have hnone : d.link? (folder ++ [n]) = none := by simp [link?, hnode]
            -- nothing is there, so only a slash may come after the name
            obtain ⟨rfl, hrest⟩ := location_of_arriveAbsent (by simpa using h)
            exact hname hnone (by rw [hrest]; exact .done _)
          · next hnode => exact hname (by simp [link?, hnode]) (ih h)
          · next hnode =>
            split at h
            · next hrest =>
              simp only [Stretch.ended.injEq, Except.ok.injEq] at h
              subst h hrest
              exact hname (by simp [link?, hnode]) (.done _)
            · simp at h
          · next target hnode =>
            split at h
            · next hitself =>
              -- seen as a link, so what is found there is not where the path leads
              rcases haim with haim | ⟨loc, rfl⟩
              · exact absurd hitself.2 haim
              · simp at h
            · cases h

/-- A way up to a link leads where the target of the link and the rest of the way lead. -/
theorem leads_of_follow_link {folder' : Location} {target : Path} {rest : List Step}
    (h : d.follow aim folder steps = .link folder' target rest)
    (hrest : d.Leads folder' (target.components ++ rest.filterMap Step.component?) dest) :
    d.Leads folder (steps.filterMap Step.component?) dest := by
  induction steps generalizing folder with
  | nil => simp [follow] at h
  | cons step steps ih =>
    cases step with
    | here => exact ih h
    | slash => exact ih h
    | up => exact .up (ih h)
    | down n =>
      simp only [follow] at h
      split at h
      · cases h
      · split at h
        · cases h
        · split at h
          · cases h
          · next hnode => exact .name (by simp [link?, hnode]) (ih h)
          · cases h
          · next text hnode =>
            split at h
            · cases h
            · cases h
              exact .link (link?_eq_some_iff.2 hnode) hrest

/-- Without links a way is walked in one stretch. -/
theorem exists_follow_ended (hfree : ∀ loc, d.link? loc = none) (aim : Aim) (loc : Location)
    (steps : List Step) : ∃ result, d.follow aim loc steps = .ended result := by
  induction steps generalizing loc with
  | nil => exact ⟨_, rfl⟩
  | cons step rest ih =>
    cases step with
    | here => exact ih loc
    | slash => exact ih loc
    | up => exact ih loc.dropLast
    | down n =>
      rw [follow]
      split
      · exact ⟨_, rfl⟩
      · split
        · exact ⟨_, rfl⟩
        · split
          · exact ⟨_, rfl⟩
          · exact ih _
          · exact ⟨_, rfl⟩
          · next target hnode =>
            have hnone := hfree (loc ++ [n])
            rw [link?_eq_some_iff.2 hnode] at hnone
            cases hnone

theorem resolve_of_ended {links : Nat} {result : Except Fault Arrival}
    (h : d.follow aim folder steps = .ended result) :
    d.resolve aim links folder steps = result := by
  unfold resolve
  cases links <;> simp [h]

theorem resolve_zero_of_link {folder' : Location} {target : Path} {rest : List Step}
    (h : d.follow aim folder steps = .link folder' target rest) :
    d.resolve aim 0 folder steps = .error .tooManyLinks := by
  unfold resolve
  simp [h]

theorem resolve_succ_of_link {links : Nat} {folder' : Location} {target : Path} {rest : List Step}
    (h : d.follow aim folder steps = .link folder' target rest) :
    d.resolve aim (links + 1) folder steps =
      d.resolve aim links (if target.isAbsolute then [] else folder') (target.steps ++ rest) := by
  rw [resolve.eq_def]
  simp [h]

/-- `d.Resolves aim arrival links folder steps`: with so many links to follow, the steps are
taken in stretches, each up to a link, of which the last ends at the arrival. -/
inductive Resolves (d : Disk) (aim : Aim) (arrival : Arrival) : Nat → Location → List Step → Prop
  | ended {links folder steps} : d.follow aim folder steps = .ended (.ok arrival) →
      Resolves d aim arrival links folder steps
  | link {links folder steps folder' target rest} :
      d.follow aim folder steps = .link folder' target rest →
      Resolves d aim arrival links (if target.isAbsolute then [] else folder')
        (target.steps ++ rest) →
      Resolves d aim arrival (links + 1) folder steps

theorem resolve_ok_iff {links : Nat} :
    d.resolve aim links folder steps = .ok arrival ↔
      d.Resolves aim arrival links folder steps := by
  constructor
  · intro h
    -- on the links, of which one is used up from stretch to stretch
    induction links generalizing folder steps with
    | zero =>
      cases hfollow : d.follow aim folder steps with
      | ended result =>
        rw [resolve_of_ended hfollow] at h
        exact .ended (h ▸ hfollow)
      | link folder' target rest =>
        rw [resolve_zero_of_link hfollow] at h
        cases h
    | succ links ih =>
      cases hfollow : d.follow aim folder steps with
      | ended result =>
        rw [resolve_of_ended hfollow] at h
        exact .ended (h ▸ hfollow)
      | link folder' target rest =>
        rw [resolve_succ_of_link hfollow] at h
        exact .link hfollow (ih h)
  · intro h
    induction h with
    | ended hfollow => exact resolve_of_ended hfollow
    | link hfollow _ ih =>
      rw [resolve_succ_of_link hfollow]
      exact ih

/-- What steps resolve to is where their components lead. -/
theorem leads_of_resolve {links : Nat} (haim : aim ≠ .itself ∨ ∃ loc, arrival = .absent loc)
    (h : d.resolve aim links folder steps = .ok arrival) :
    d.Leads folder (steps.filterMap Step.component?) arrival.location := by
  rw [resolve_ok_iff] at h
  induction h with
  | ended hfollow => exact leads_of_follow haim hfollow
  | link hfollow _ ih =>
    refine leads_of_follow_link hfollow ?_
    rw [List.filterMap_append] at ih
    obtain ⟨mid, hmid, hrest⟩ := leads_append.1 ih
    exact leads_append.2 ⟨mid, leads_components.2 hmid, hrest⟩

/-! ### Finding -/

/-- The location that a path is read from. -/
def origin (d : Disk) (p : Path) : Location :=
  if p.isAbsolute then [] else d.start

/-- The text of the path is one that is looked up, and the directory that it is read from is
there. -/
structure Readable (d : Disk) (p : Path) : Prop where
  no_nul : p.text.toList.contains '\x00' = false
  ne_empty : p.text ≠ ""
  short : ¬ longestPath < p.text.utf8ByteSize
  origin : d.node? (d.origin p) = some .folder

theorem find_ok_iff {p : Path} : d.find aim p = .ok arrival ↔
    d.Readable p ∧ d.resolve aim mostLinks (d.origin p) p.steps = .ok arrival := by
  rw [find, walk]
  constructor
  · intro h
    split at h
    · cases h
    · next hnul =>
      split at h
      · cases h
      · next hempty =>
        split at h
        · cases h
        · next hlong =>
          split at h
          · next habsolute =>
            have horigin : d.origin p = [] := if_pos habsolute
            exact ⟨⟨by simpa using hnul, hempty, hlong, by rw [horigin, node?_nil]⟩,
              by rw [horigin, h]⟩
          · next habsolute =>
            have horigin : d.origin p = d.start := if_neg habsolute
            split at h
            · next hstart =>
              exact ⟨⟨by simpa using hnul, hempty, hlong, by rw [horigin, hstart]⟩,
                by rw [horigin, h]⟩
            · cases h
  · rintro ⟨hreadable, hresolve⟩
    rw [if_neg (by simpa using hreadable.no_nul), if_neg hreadable.ne_empty,
      if_neg hreadable.short]
    by_cases habsolute : p.isAbsolute = true
    · rw [if_pos habsolute]
      rwa [origin, if_pos habsolute] at hresolve
    · have hstart := hreadable.origin
      rw [origin, if_neg habsolute] at hresolve hstart
      rw [if_neg habsolute, if_pos hstart, hresolve]

/-- A path leads to the location that the disk resolves it to. -/
theorem reaches_of_find {p : Path} (haim : aim ≠ .itself ∨ ∃ loc, arrival = .absent loc)
    (h : d.find aim p = .ok arrival) : d.Reaches p arrival.location := by
  rw [Reaches, leads_components]
  exact leads_of_resolve haim (find_ok_iff.1 h).2

end Disk

end GemCourier
