/-
GemCourier/Proofs/Disk/Entering.lean

What an operation finds at an entry of a directory that is entered.

`Enters` says of a list of components that the way along them goes through
directories to a directory, however a path with these components is written.
Behind such a way one name is left, and if no link stands under it there are few
things that can come of looking it up: the text of the path or the name is one
that nothing is looked up by (`refusal?`), or something stands there, or nothing
does.  Looking, writing and making a directory are told from that.

Main results: `enters_of_isFolder`, `Enters.find_entry`, `Enters.node_entry`,
`Enters.writeFile_entry`.
-/
import GemCourier.Proofs.Disk.Opening
import GemCourier.Proofs.Path.Relative

namespace GemCourier

/-- The step that a component of a path is read as, if it moves at all. -/
def Component.step? : Component → Option Step
  | .root => none
  | .here => none
  | .up => some .up
  | .name n => some (.down n)

namespace Path

variable {p q : Path} {n : String}

/-! ### Paths that end in a name -/

/-- Whoever wrote the path ended it with the name of an entry, and with nothing behind it. -/
def Neat (p : Path) (n : String) : Prop :=
  IsEntryName n ∧ ∃ outer, p.pieces = outer ++ [n]

theorem isAbsolute_iff_head : p.isAbsolute = true ↔ p.components.head? = some .root := by
  obtain ⟨first, rest, hpieces⟩ := List.exists_cons_of_ne_nil p.pieces_ne_nil
  constructor
  · intro habsolute
    rw [components_eq hpieces]
    simp [leading?, habsolute]
  · intro hhead
    refine Classical.byContradiction fun habsolute => ?_
    -- a relative path opens with a `.`, or with a component of a piece, which is no root
    have hroot : .root ∈
        (leading? p.isAbsolute first).toList ++ rest.filterMap Component.ofPiece? := by
      rw [← components_eq hpieces]
      exact List.mem_of_mem_head? hhead
    simp only [leading?, habsolute, Bool.false_eq_true, if_false, List.mem_append,
      Option.mem_toList, List.mem_filterMap] at hroot
    rcases hroot with hroot | ⟨piece, _, hpiece⟩
    · split at hroot
      · cases hroot
      · exact (Component.ofPiece?_eq_some hroot).1 rfl
    · exact (Component.ofPiece?_eq_some hpiece).1 rfl

/-- The steps of a path and the steps of its components move in the same way. -/
theorem walked_moves (p : Path) : p.walked.filterMap Step.component? =
    (p.components.filterMap Component.step?).filterMap Step.component? := by
  have hpiece : ∀ piece, ((Component.ofPiece? piece).bind Component.step?).bind Step.component? =
      Component.ofPiece? piece := by
    intro piece
    cases h : Component.ofPiece? piece with
    | none => rfl
    | some c =>
      obtain ⟨hroot, hhere, -⟩ := Component.ofPiece?_eq_some h
      cases c with
      | root => exact absurd rfl hroot
      | here => exact absurd rfl hhere
      | up => rfl
      | name n => rfl
  have hpieces : ∀ pieces : List String,
      ((pieces.filterMap Component.ofPiece?).filterMap Component.step?).filterMap Step.component? =
        pieces.filterMap Component.ofPiece? := by
    intro pieces
    simp only [List.filterMap_filterMap, Option.bind_assoc] at hpiece ⊢
    exact List.filterMap_congr fun piece _ => hpiece piece
  have hwalked : p.walked.filterMap Step.component? = p.pieces.filterMap Component.ofPiece? := by
    rw [walked, List.filterMap_filterMap]
    exact List.filterMap_congr fun piece _ => Step.component?_ofPiece? piece
  obtain ⟨first, rest, hfirst⟩ := List.exists_cons_of_ne_nil p.pieces_ne_nil
  rw [hwalked, components_eq hfirst, hfirst]
  by_cases habsolute : p.isAbsolute = true
  · -- the root is no move, and nothing stands before its slash
    obtain ⟨rfl, -⟩ := (isAbsolute_iff hfirst).1 habsolute
    have hfront : (leading? p.isAbsolute "").toList = [.root] := by simp [leading?, habsolute]
    rw [hfront, List.filterMap_cons_none rfl, List.cons_append, List.nil_append,
      List.filterMap_cons_none rfl, hpieces]
  · by_cases hhere : first = "."
    · have hfront : (leading? p.isAbsolute first).toList = [.here] := by
        simp [leading?, habsolute, hhere]
      rw [hfront, hhere, List.filterMap_cons_none rfl, List.cons_append, List.nil_append,
        List.filterMap_cons_none rfl, hpieces]
    · have : (leading? p.isAbsolute first).toList ++ rest.filterMap Component.ofPiece? =
          (first :: rest).filterMap Component.ofPiece? := by
        cases h : Component.ofPiece? first <;> simp [leading?, habsolute, hhere, h]
      rw [this, hpieces]

theorem steps_moves (p : Path) : p.steps.filterMap Step.component? =
    (p.components.filterMap Component.step?).filterMap Step.component? := by
  rw [← walked_moves, steps, List.filterMap_append, ← walked]
  split <;> simp [Step.component?]

/-- The last step of a path that is written with a name at its end takes this name. -/
theorem Neat.steps (h : p.Neat n) : ∃ front, p.steps = front ++ [.down n] := by
  obtain ⟨hn, outer, hpieces⟩ := h
  -- a slash at the end would leave an empty piece there
  have hslash : p.endsInSlash = false := by
    refine Bool.eq_false_iff.2 fun hslash => hn.ne_empty ?_
    rw [endsInSlash, beq_iff_eq] at hslash
    obtain ⟨body, hbody⟩ := List.getLast?_eq_some_iff.1 hslash
    rw [pieces, Text.split, hbody, Text.pieces_append_sep] at hpieces
    have hlast := congrArg List.getLast? hpieces
    rw [List.map_append, List.getLast?_append, List.getLast?_concat] at hlast
    simpa [Text.pieces] using hlast.symm
  have hdown : Step.ofPiece? n = some (.down n) := by
    simp [Step.ofPiece?, hn.ne_empty, hn.ne_here, hn.ne_up]
  refine ⟨outer.filterMap Step.ofPiece?, ?_⟩
  rw [Path.steps, hslash, hpieces, List.filterMap_append, List.filterMap_cons_some hdown]
  simp

theorem Neat.text_ne_empty (h : p.Neat n) : p.text ≠ "" := by
  obtain ⟨hn, outer, hpieces⟩ := h
  intro hempty
  rw [pieces, Text.split, hempty] at hpieces
  have hlast := congrArg List.getLast? hpieces
  rw [List.getLast?_concat] at hlast
  exact hn.ne_empty (by simpa [Text.pieces] using hlast.symm)

/-- A name that is added to a path ends it. -/
theorem neat_join (hn : q.Neat n) (hq : q.isAbsolute = false) : (p.join q).Neat n := by
  obtain ⟨hentry, outer, hpieces⟩ := hn
  refine ⟨hentry, ?_⟩
  by_cases hp : p.text = ""
  · have hjoin : p.join q = q := by
      obtain ⟨text⟩ := p
      cases hp
      simp [join, hq]
    exact ⟨outer, by rw [hjoin, hpieces]⟩
  · obtain ⟨front, _, _, hjoin, _⟩ := pieces_join hp hq
    exact ⟨front ++ outer, by rw [hjoin, hpieces, List.append_assoc]⟩

theorem neat_child (hn : IsEntryName n) : (p.child n).Neat n :=
  neat_join ⟨hn, [], pieces_of_isEntryName hn⟩ (isAbsolute_of_isEntryName hn)

/-- What is put together from pieces ends with the last one that counts. -/
theorem neat_ofPieces {ps : List String} {front : List Component}
    (hps : ∀ piece ∈ ps, '/' ∉ piece.toList)
    (hcomponents : ps.filterMap Component.ofPiece? = front ++ [.name n]) :
    (ofPieces (dropIdleEnd (ps.dropWhile isIdle))).Neat n := by
  rw [← filterMap_dropWhile_idle ps] at hcomponents
  have hmem : ∀ piece ∈ ps.dropWhile isIdle, '/' ∉ piece.toList :=
    fun piece hpiece => hps piece ((List.dropWhile_sublist _).mem hpiece)
  generalize ps.dropWhile isIdle = body at hcomponents hmem
  obtain ⟨last, outer, hreverse⟩ : ∃ last outer, body.reverse.dropWhile isIdle = last :: outer := by
    refine List.exists_cons_of_ne_nil fun hnil => ?_
    rw [← filterMap_dropIdleEnd body, dropIdleEnd, hnil] at hcomponents
    simp at hcomponents
  have hbody : dropIdleEnd body = outer.reverse ++ [last] := by
    rw [dropIdleEnd, hreverse, List.reverse_cons]
  -- the last piece that is left counts, so it is the last component
  have hlast : Component.ofPiece? last = some (.name n) := by
    have hcounts : ¬ isIdle last = true := by
      have := List.head_dropWhile_not isIdle (l := body.reverse) (by rw [hreverse]; simp)
      simpa [hreverse] using this
    obtain ⟨c, hc⟩ := Option.ne_none_iff_exists'.1 (mt isIdle_iff.2 hcounts)
    rw [← filterMap_dropIdleEnd body, hbody, List.filterMap_append,
      List.filterMap_cons_some hc, List.filterMap_nil] at hcomponents
    obtain ⟨-, hcn⟩ := List.append_inj' hcomponents rfl
    rw [hc, (List.cons.inj hcn).1]
  have hinitial := dropIdleEnd_prefix body
  have hpieces : (ofPieces (dropIdleEnd body)).pieces = dropIdleEnd body :=
    pieces_ofPieces (by simp [hbody]) fun piece hpiece => hmem piece (hinitial.mem hpiece)
  obtain rfl : n = last := (Component.ofPiece?_eq_some hlast).2.2
  exact ⟨isEntryName_of_ofPiece? (by rw [hpieces, hbody]; simp) hlast, outer.reverse,
    hpieces.trans hbody⟩

/-- What is left of a path below a base that has components ends with its last name. -/
theorem neat_relativeTo? {base r : Path} {front : List Component} (hbase : base.components ≠ [])
    (h : p.relativeTo? base = some r) (hr : r.components = front ++ [.name n]) : r.Neat n := by
  rw [relativeTo?] at h
  split at h
  · obtain ⟨k, hk⟩ := Nat.exists_eq_succ_of_ne_zero
      (fun e => hbase (List.length_eq_zero_iff.1 e) : base.components.length ≠ 0)
    obtain ⟨ps, hps, hcomponents, hdrop⟩ := p.exists_pieces_dropComponents k
    obtain rfl : p.dropComponents base.components.length = r := Option.some.inj h
    rw [hk, Nat.succ_eq_add_one] at hr ⊢
    rw [(dropComponents_succ p k).2, ← hcomponents] at hr
    rw [hdrop]
    exact neat_ofPieces (fun piece hpiece => no_slash_of_mem_pieces (hps piece hpiece)) hr
  · cases h

/-- Why nothing is looked up by a path that ends in the name, whatever the disk: its text holds
what none may hold, or it or its name is too long. -/
def refusal? (p : Path) (n : String) : Option Fault :=
  if p.text.toList.contains '\x00' then some .holdsNul
  else if longestPath < p.text.utf8ByteSize ∨ longestName < n.utf8ByteSize then some .nameTooLong
  else none

theorem refusal?_ne_notFound : p.refusal? n ≠ some .notFound := by
  unfold refusal?
  split
  · simp
  · split <;> simp

theorem short_of_refusal? (h : p.refusal? n = none) : ¬ longestName < n.utf8ByteSize := by
  intro hlong
  rw [refusal?] at h
  split at h
  · cases h
  · simp [hlong] at h

end Path

namespace Disk

variable {d d' : Disk} {cs : List Component} {p q : Path} {n : String} {aim : Aim}
  {loc loc' dest : Location} {k k' : Nat} {steps more : List Step}

/-! ### Ways to directories -/

/-- Steps that do not move may stand in front of a way. -/
theorem Way.idle {idle : List Step} (hidle : ∀ step ∈ idle, step.component? = none)
    (h : d.Way k loc steps k' loc') : d.Way k loc (idle ++ steps) k' loc' := by
  induction idle with
  | nil => exact h
  | cons step rest ih =>
    have hrest := ih fun other hother => hidle other (by simp [hother])
    have hstep := hidle step (by simp)
    cases step with
    | here => exact .here hrest
    | slash => exact .slash hrest
    | up => cases hstep
    | down n => cases hstep

/-- Steps that move in the same way take the same way. -/
theorem Way.congr (h : d.Way k loc steps k' loc')
    (hmoves : more.filterMap Step.component? = steps.filterMap Step.component?) :
    d.Way k loc more k' loc' := by
  induction h generalizing more with
  | done =>
    rw [← List.append_nil more]
    exact .idle (List.filterMap_eq_nil_iff.1 hmoves) .done
  | here _ ih => exact ih hmoves
  | slash _ ih => exact ih hmoves
  | up _ ih =>
    obtain ⟨idle, step, rest', rfl, hidle, hstep, hrest⟩ := List.filterMap_eq_cons_iff.1 hmoves
    obtain rfl : step = .up := Step.eq_of_component? hstep rfl
    exact .idle hidle (.up (ih hrest))
  | down hshort hnode _ ih =>
    obtain ⟨idle, step, rest', rfl, hidle, hstep, hrest⟩ := List.filterMap_eq_cons_iff.1 hmoves
    obtain rfl : step = .down _ := Step.eq_of_component? hstep rfl
    exact .idle hidle (.down hshort hnode (ih hrest))
  | link hshort hnode _ ih =>
    obtain ⟨idle, step, rest', rfl, hidle, hstep, hrest⟩ := List.filterMap_eq_cons_iff.1 hmoves
    obtain rfl : step = .down _ := Step.eq_of_component? hstep rfl
    refine .idle hidle (.link hshort hnode (ih ?_))
    rw [List.filterMap_append, hrest, List.filterMap_append]

/-- Steps that resolve to a directory are a way to it. -/
theorem exists_way_of_folder (h : d.resolve .through k loc steps = .ok (.found dest))
    (hdest : d.node? dest = some .folder) : ∃ k', d.Way k loc steps k' dest := by
  -- along the steps, and through the links first, as for a way to a last name
  induction k using Nat.strongRecOn generalizing loc steps with
  | ind k ihk =>
    induction steps generalizing loc with
    | nil =>
      rw [resolve_nil] at h
      cases h
      exact ⟨k, .done⟩
    | cons step rest ih =>
      cases step with
      | here =>
        obtain ⟨k', hway⟩ := ih (by rwa [resolve_here] at h)
        exact ⟨k', .here hway⟩
      | slash =>
        obtain ⟨k', hway⟩ := ih (by rwa [resolve_slash] at h)
        exact ⟨k', .slash hway⟩
      | up =>
        obtain ⟨k', hway⟩ := ih (by rwa [resolve_up] at h)
        exact ⟨k', .up hway⟩
      | down m =>
        rw [resolve_down] at h
        split at h
        · cases h
        · next hshort =>
          split at h
          · have harrival := (location_of_arriveAbsent h).1
            cases harrival
          · next hnode =>
            obtain ⟨k', hway⟩ := ih h
            exact ⟨k', .down hshort hnode hway⟩
          · next hnode =>
            -- a file at the end would be no directory
            split at h
            · cases h
              rw [hdest] at hnode
              cases hnode
            · cases h
          · next target hnode =>
            cases k with
            | zero => cases h
            | succ k =>
              obtain ⟨k', hway⟩ := ihk k (Nat.lt_succ_self k) h
              exact ⟨k', .link hshort hnode hway⟩

/-- A directory opens. -/
theorem exists_opens_of_isFolder (h : d.isFolder p = true) : ∃ k loc, d.Opens p k loc := by
  obtain ⟨loc, hfind, hnode⟩ := node_ok_iff.1 (isFolder_iff.1 h)
  obtain ⟨hreadable, hresolve⟩ := find_ok_iff.1 hfind
  obtain ⟨k, hway⟩ := exists_way_of_folder hresolve hnode
  -- a slash at the end is no move
  refine ⟨k, loc, hreadable, hway.congr ?_⟩
  rw [Path.walked_moves, Path.steps_moves]

/-- Behind a way, whatever a last name is resolved for, it is resolved in the directory that the
way leads to. -/
theorem Way.resolve_last (h : d.Way k loc steps k' loc') (aim : Aim) (n : String) :
    d.resolve aim k loc (steps ++ [.down n]) = d.resolve aim k' loc' [.down n] := by
  -- as a name stands last, no slash does, which is all that writing looks for
  have hlast : ∀ rest : List Step, ¬ (aim = .written ∧ rest ++ [.down n] = [.slash]) := by
    rintro rest ⟨-, hrest⟩
    have := congrArg List.getLast? hrest
    simp at this
  induction h with
  | done => rfl
  | here _ ih =>
    refine (resolve_congr ?_).trans ih
    rfl
  | slash _ ih =>
    refine (resolve_congr ?_).trans ih
    rfl
  | up _ ih =>
    refine (resolve_congr ?_).trans ih
    rfl
  | @down k loc m rest k' loc' hshort hnode _ ih =>
    refine (resolve_congr ?_).trans ih
    rw [List.cons_append, follow, if_neg (hlast rest), if_neg hshort, hnode]
  | @link k loc m target rest k' loc' hshort hnode _ ih =>
    have hfollow : d.follow aim loc (.down m :: (rest ++ [.down n])) =
        .link loc ⟨target⟩ (rest ++ [.down n]) := by
      rw [follow, if_neg (hlast rest), if_neg hshort, hnode]
      simp
    rw [List.cons_append, resolve_succ_of_link hfollow, ← List.append_assoc]
    exact ih

/-! ### Entering -/

/-- The location that a path with some components is read from. -/
def originOf (d : Disk) (cs : List Component) : Location :=
  if cs.head? = some .root then [] else d.start

theorem origin_eq (d : Disk) (p : Path) : d.origin p = d.originOf p.components := by
  simp only [origin, originOf, Path.isAbsolute_iff_head]

/-- A path is read from where its first components are, unless a root comes first behind none. -/
theorem originOf_append (d : Disk) {cs ds : List Component}
    (h : cs = [] → ds.head? ≠ some .root) : d.originOf (cs ++ ds) = d.originOf cs := by
  cases cs with
  | nil => simp [originOf, h rfl]
  | cons first rest => rfl

theorem originOf_concat (d : Disk) (cs : List Component) (n : String) :
    d.originOf (cs ++ [.name n]) = d.originOf cs :=
  d.originOf_append fun _ => by simp

/-- `d.Enters cs loc`: the components lead through directories to the directory `loc`. -/
structure Enters (d : Disk) (cs : List Component) (loc : Location) : Prop where
  origin : d.node? (d.originOf cs) = some .folder
  way : ∃ k, d.Way mostLinks (d.originOf cs) (cs.filterMap Component.step?) k loc

theorem Enters.grows (hgrows : d.Grows d') (h : d.Enters cs loc) : d'.Enters cs loc := by
  have horigin : d'.originOf cs = d.originOf cs := by rw [originOf, originOf, hgrows.start]
  obtain ⟨k, hway⟩ := h.way
  refine ⟨?_, k, ?_⟩
  · rw [horigin]
    exact hgrows.folder h.origin
  · rw [horigin]
    exact hway.grows hgrows

/-- A path leads to the location that its components enter. -/
theorem Enters.reaches (h : d.Enters p.components loc) : d.Reaches p loc := by
  obtain ⟨k, hway⟩ := h.way
  rw [Reaches, leads_components, Path.steps_moves]
  have hleads := leads_of_resolve (Or.inl (by simp)) hway.resolve
  rwa [← origin_eq, Disk.origin] at hleads

/-- What components enter is where they lead. -/
theorem Enters.leads (h : d.Enters cs loc) (hcs : Path.Canonical cs) : d.Leads d.start cs loc := by
  rw [← Path.components_ofComponents hcs] at h ⊢
  exact h.reaches

/-- Components that enter a directory enter one with each part of them that is not empty. -/
theorem Enters.initial {ds : List Component} (h : d.Enters (cs ++ ds) loc) (hcs : cs ≠ []) :
    ∃ outer, d.Enters cs outer := by
  obtain ⟨k, hway⟩ := h.way
  have horigin : d.originOf (cs ++ ds) = d.originOf cs := d.originOf_append (absurd · hcs)
  rw [List.filterMap_append, horigin] at hway
  obtain ⟨k₁, outer, hfront, -⟩ := way_append.1 hway
  exact ⟨outer, horigin ▸ h.origin, k₁, hfront⟩

/-- Where nothing is left to move, the place that is read from is entered. -/
theorem enters_of_stays (hmoves : cs.filterMap Component.step? = [])
    (horigin : d.node? (d.originOf cs) = some .folder) : d.Enters cs (d.originOf cs) :=
  ⟨horigin, mostLinks, by rw [hmoves]; exact .done⟩

/-- A path to a directory enters it. -/
theorem enters_of_isFolder (h : d.isFolder p = true) : ∃ loc, d.Enters p.components loc := by
  obtain ⟨k, loc, hreadable, hway⟩ := exists_opens_of_isFolder h
  rw [origin_eq] at hway
  refine ⟨loc, ?_, k, hway.congr (Path.walked_moves p).symm⟩
  rw [← origin_eq]
  exact hreadable.origin

/-! ### The entries of a directory that is entered -/

/-- Why the path of an entry is not written, if it is not: nothing is looked up by it, or a
directory stands there. -/
def writeFault? (d : Disk) (q : Path) (n : String) (loc : Location) : Option Fault :=
  match q.refusal? n with
  | some fault => some fault
  | none => if d.node? (loc ++ [n]) = some .folder then some .isDirectory else none

/-- What a path is refused for once it is refused for again. -/
theorem writeFault?_grows {fault : Fault} (hgrows : d.Grows d')
    (hfault : d.writeFault? q n loc = some fault) : d'.writeFault? q n loc = some fault := by
  rw [writeFault?] at hfault ⊢
  cases hrefused : q.refusal? n with
  | some fault' => rwa [hrefused] at hfault
  | none =>
    simp only [hrefused] at hfault ⊢
    split at hfault
    · next hnode => rwa [if_pos (hgrows.folder hnode)]
    · cases hfault

/-- A path that was written once is not refused while a file stands there. -/
theorem writeFault?_of_file {b : ByteArray} {t : Int} {m : Nat}
    (hfault : d.writeFault? q n loc = none) (hnode : d'.node? (loc ++ [n]) = some (.file b t m)) :
    d'.writeFault? q n loc = none := by
  rw [writeFault?] at hfault ⊢
  cases hrefused : q.refusal? n with
  | some fault => simp [hrefused] at hfault
  | none => simp [hnode]

/-- What components enter under a last name that is no link is an entry of the directory that they
enter before it. -/
theorem Enters.exists_entry (h : d.Enters (cs ++ [.name n]) dest)
    (hfree : ∀ loc, d.link? loc = none) :
    ∃ loc, d.Enters cs loc ∧ dest = loc ++ [n] ∧ ¬ longestName < n.utf8ByteSize := by
  obtain ⟨k, hway⟩ := h.way
  rw [List.filterMap_append, originOf_concat] at hway
  obtain ⟨k₁, loc, hfront, hlast⟩ := way_append.1 hway
  refine ⟨loc, ⟨originOf_concat d cs n ▸ h.origin, k₁, hfront⟩, ?_⟩
  cases hlast with
  | down hshort _ hdone =>
    cases hdone
    exact ⟨rfl, hshort⟩
  | link _ hnode _ =>
    have hnone := hfree (loc ++ [n])
    rw [link?_eq_some_iff.2 hnode] at hnone
    cases hnone

/-- An entry that is a directory is entered. -/
theorem Enters.entry (h : d.Enters cs loc) (hshort : ¬ longestName < n.utf8ByteSize)
    (hnode : d.node? (loc ++ [n]) = some .folder) : d.Enters (cs ++ [.name n]) (loc ++ [n]) := by
  obtain ⟨k, hway⟩ := h.way
  rw [← originOf_concat d cs n] at hway
  refine ⟨by rw [originOf_concat]; exact h.origin, k, ?_⟩
  rw [List.filterMap_append]
  exact way_append.2 ⟨k, loc, hway, .down hshort hnode .done⟩

/-- A path along the components of a path and then some names is read from where that one is
read, if there is a directory there, or else from nowhere. -/
theorem not_readable_of_prefix {p root : Path} {names : List String}
    (hp : p.components <+: root.components ++ names.map .name)
    (horigin : d.node? (d.originOf root.components) ≠ some .folder) : ¬ d.Readable p := by
  intro hreadable
  -- what is read from the root is read from a directory
  have hroot : root.components.head? ≠ some .root := by
    intro hhead
    rw [originOf, if_pos hhead, node?_nil] at horigin
    exact horigin rfl
  have hhead : p.components.head? ≠ some .root := by
    intro hhead
    obtain ⟨rest, hrest⟩ := List.head?_eq_some_iff.1 hhead
    obtain ⟨more, hmore⟩ := hp
    rw [hrest] at hmore
    cases hcomponents : root.components with
    | nil =>
      rw [hcomponents] at hmore
      cases names <;> cases hmore
    | cons first others =>
      rw [hcomponents] at hmore hroot
      obtain rfl : Component.root = first := (List.cons.inj hmore).1
      exact hroot rfl
  have hfolder := hreadable.origin
  rw [origin_eq, originOf, if_neg hhead] at hfolder
  rw [originOf, if_neg hroot] at horigin
  exact horigin hfolder

section Entry

variable (h : d.Enters cs loc) (hq : q.Neat n) (hc : q.components = cs ++ [.name n])
  (hfree : d.link? (loc ++ [n]) = none)
include h hq hc hfree

/-- What comes of looking up an entry, whatever it is looked up for. -/
theorem Enters.find_entry (aim : Aim) : d.find aim q = match q.refusal? n with
    | some fault => .error fault
    | none => .ok (if d.node? (loc ++ [n]) = none then .absent (loc ++ [n])
        else .found (loc ++ [n])) := by
  have horigin : d.originOf q.components = d.originOf cs := by rw [hc, originOf_concat]
  obtain ⟨k, hway⟩ := h.way
  -- the way that the text of the path takes to its last name
  obtain ⟨front, hsteps⟩ := hq.steps
  have hfront : d.Way mostLinks (d.originOf cs) front k loc := by
    refine hway.congr ?_
    have hmoves := Path.steps_moves q
    rw [hsteps, hc, List.filterMap_append, List.filterMap_append, List.filterMap_append] at hmoves
    simpa [Step.component?, Component.step?] using hmoves
  have hlast : d.resolve aim k loc [.down n] =
      if longestName < n.utf8ByteSize then .error .nameTooLong
      else .ok (if d.node? (loc ++ [n]) = none then .absent (loc ++ [n])
        else .found (loc ++ [n])) := by
    refine resolve_of_ended ?_
    rw [follow, if_neg (by simp)]
    split
    · rfl
    · cases hnode : d.node? (loc ++ [n]) with
      | none => simp [arriveAbsent]
      | some node =>
        cases node with
        | folder => simp [follow]
        | file b t m => simp
        | link target =>
          rw [link?_eq_some_iff.2 hnode] at hfree
          cases hfree
  have hresolve : d.resolve aim mostLinks (d.originOf cs) q.steps = _ :=
    hsteps ▸ (hfront.resolve_last aim n).trans hlast
  have horigin' : (if q.isAbsolute then [] else d.start) = d.originOf cs := by
    rw [← horigin, ← origin_eq]
    rfl
  rw [find, walk, Path.refusal?]
  by_cases hnul : q.text.toList.contains '\x00' = true
  · rw [if_pos hnul, if_pos hnul]
  · rw [if_neg hnul, if_neg hnul, if_neg hq.text_ne_empty]
    by_cases hlong : longestPath < q.text.utf8ByteSize
    · simp [hlong]
    · have hread : (if q.isAbsolute then d.resolve aim mostLinks [] q.steps
          else if d.node? d.start = some .folder then d.resolve aim mostLinks d.start q.steps
          else .error .notFound) = d.resolve aim mostLinks (d.originOf cs) q.steps := by
        have hfolder := h.origin
        rw [← horigin'] at hfolder ⊢
        split
        · rfl
        · next habsolute =>
          rw [if_neg habsolute] at hfolder
          rw [if_pos hfolder]
      rw [if_neg hlong, hread, hresolve]
      by_cases hname : longestName < n.utf8ByteSize
      · simp [hname]
      · simp [hlong, hname]

/-- What stands at an entry. -/
theorem Enters.node_entry : d.node q = match q.refusal? n with
    | some fault => .error fault
    | none => match d.node? (loc ++ [n]) with
      | none => .error .notFound
      | some node => .ok node := by
  rw [node, lookUp, h.find_entry hq hc hfree]
  cases q.refusal? n with
  | some fault => rfl
  | none => cases hnode : d.node? (loc ++ [n]) <;> simp [hnode, Except.map]

/-- A directory is made at an entry where nothing stands. -/
theorem Enters.makeFolder_entry (hopen : q.refusal? n = none)
    (hnode : d.node? (loc ++ [n]) = none) : d.makeFolder q = .ok (d.put (loc ++ [n]) .folder) := by
  rw [makeFolder, h.find_entry hq hc hfree]
  simp [hopen, hnode]

/-- Whether an entry is written, and why not.  A file that is there keeps its mode. -/
theorem Enters.writeFile_entry (bytes : ByteArray) :
    match d.writeFault? q n loc with
    | some fault => d.writeFile q bytes = .error fault
    | none => ∃ mode, d.writeFile q bytes = .ok (d.putFile (loc ++ [n]) bytes mode) ∧
        ∀ b t m, d.node? (loc ++ [n]) = some (.file b t m) → mode = m := by
  rw [writeFile, h.find_entry hq hc hfree, writeFault?]
  cases q.refusal? n with
  | some fault => rfl
  | none =>
    cases hnode : d.node? (loc ++ [n]) with
    | none => simp
    | some node =>
      cases node with
      | folder => simp [hnode]
      | file b t m => simp [hnode]
      | link target =>
        rw [link?_eq_some_iff.2 hnode] at hfree
        cases hfree

end Entry

end Disk

end GemCourier
