/-
GemCourier/Proofs/Path/Ending.lean

How a path ends.

A text that is added behind a path goes to its last piece, be that a name, a dot
or nothing at all.  If it is longer than two dots, what the path ends with then
is the name of an entry, in the same directory as before.

Main results: `Neat.components`, `neat_of_lastStep?`, `exists_suffixed`.
-/
import GemCourier.Proofs.Disk.Entering

namespace GemCourier

/-- The last piece of a text, and what stands before it. -/
theorem Text.exists_last_piece (sep : Char) (text : List Char) : ∃ outer last, sep ∉ last ∧
    pieces sep text = outer ++ [last] ∧
      (outer = [] ∧ text = last ∨ ∃ front, outer = pieces sep front ∧ text = front ++ sep :: last) := by
  by_cases hsep : sep ∈ text
  · -- the last separator is the first one backwards
    obtain ⟨last, front, hreverse, hlast⟩ := List.eq_append_cons_of_mem (List.mem_reverse.2 hsep)
    have htext : text = front.reverse ++ sep :: last.reverse := by
      rw [← List.reverse_reverse text, hreverse]
      simp
    have hlast' : sep ∉ last.reverse := by simpa using hlast
    refine ⟨pieces sep front.reverse, last.reverse, hlast', ?_, Or.inr ⟨_, rfl, htext⟩⟩
    rw [htext, pieces_append_sep, pieces_of_not_mem hlast']
  · exact ⟨[], text, hsep, pieces_of_not_mem hsep, Or.inl ⟨rfl, rfl⟩⟩

namespace Step

variable {piece : String}

theorem ofPiece?_eq_none : ofPiece? piece = none ↔ piece = "" := by
  rw [ofPiece?]
  split
  · simp_all
  · split
    · simp_all
    · split <;> simp_all

theorem ofPiece?_ne_slash : ofPiece? piece ≠ some .slash := by
  rw [ofPiece?]
  split
  · simp
  · split
    · simp
    · split <;> simp

end Step

namespace Path

variable {p : Path} {n suffix : String}

/-! ### The last piece -/

theorem exists_pieces_concat (p : Path) : ∃ outer last, p.pieces = outer ++ [last] ∧
    (last = "" → p.text = "" ∨ p.endsInSlash = true) := by
  obtain ⟨outer, last, -, hpieces, htext⟩ := Text.exists_last_piece '/' p.text.toList
  refine ⟨outer.map String.ofList, String.ofList last, ?_, fun hlast => ?_⟩
  · rw [pieces, Text.split, hpieces, List.map_append, List.map_singleton]
  · obtain rfl := String.ofList_eq_empty_iff.1 hlast
    rcases htext with ⟨-, htext⟩ | ⟨front, -, htext⟩
    · exact Or.inl (String.toList_eq_nil_iff.1 htext)
    · refine Or.inr ?_
      rw [endsInSlash, htext, List.getLast?_concat]
      rfl

/-- A path that ends with a name, and not with a slash, is written so. -/
theorem neat_of_lastStep? (h : Disk.lastStep? p = some (.down n)) (hslash : p.endsInSlash = false) :
    p.Neat n := by
  obtain ⟨outer, last, hpieces, hempty⟩ := p.exists_pieces_concat
  have hsteps : p.steps = outer.filterMap Step.ofPiece? ++ (Step.ofPiece? last).toList := by
    rw [steps, hslash, hpieces, List.filterMap_append]
    cases hstep : Step.ofPiece? last <;> simp [hstep]
  cases hstep : Step.ofPiece? last with
  | none =>
    -- with no slash at its end the path would be empty
    rcases hempty (Step.ofPiece?_eq_none.1 hstep) with htext | hend
    · have hnone : Disk.lastStep? p = none := by
        obtain ⟨text⟩ := p
        obtain rfl : text = "" := htext
        decide
      rw [hnone] at h
      cases h
    · rw [hslash] at hend
      cases hend
  | some step =>
    have hne : step ≠ .slash := fun e => Step.ofPiece?_ne_slash (e ▸ hstep)
    rw [Disk.lastStep?, hsteps, hstep, List.filter_append] at h
    obtain rfl : step = .down n := by simpa [hne] using h
    have hpiece : Component.ofPiece? last = some (.name n) := by
      rw [← Step.component?_ofPiece?, hstep]
      rfl
    obtain rfl : n = last := (Component.ofPiece?_eq_some hpiece).2.2
    exact ⟨isEntryName_of_ofPiece? (by rw [hpieces]; simp) hpiece, outer, hpieces⟩

theorem Neat.lastStep? (h : p.Neat n) : Disk.lastStep? p = some (.down n) := by
  obtain ⟨front, hsteps⟩ := h.steps
  rw [Disk.lastStep?, hsteps, List.filter_append]
  simp

theorem Neat.endsInSlash (h : p.Neat n) : p.endsInSlash = false := by
  obtain ⟨front, hsteps⟩ := h.steps
  refine Bool.eq_false_iff.2 fun hslash => ?_
  rw [Path.steps, if_pos hslash] at hsteps
  exact absurd (List.append_inj' hsteps rfl).2 (by simp)

/-- The components of a path, told from its last piece. -/
theorem exists_components_concat (outer : List String) : ∃ cs, ∀ (q : Path) (last : String),
    q.pieces = outer ++ [last] → ∃ c, q.components = cs ++ c ∧
      (c = (Component.ofPiece? last).toList ∨ last = "." ∧ c = [.here]) := by
  cases outer with
  | nil =>
    refine ⟨[], fun q last hpieces => ?_⟩
    have hrelative : q.isAbsolute = false := by
      refine Bool.eq_false_iff.2 fun habsolute => ?_
      exact ((isAbsolute_iff hpieces).1 habsolute).2 rfl
    refine ⟨(leading? q.isAbsolute last).toList, ?_, ?_⟩
    · rw [components_eq hpieces, List.filterMap_nil, List.append_nil, List.nil_append]
    · by_cases hhere : last = "."
      · exact Or.inr ⟨hhere, by simp [leading?, hrelative, hhere]⟩
      · exact Or.inl (by simp [leading?, hrelative, hhere])
  | cons first rest =>
    refine ⟨(leading? (first = "") first).toList ++ rest.filterMap Component.ofPiece?,
      fun q last hpieces => ⟨_, ?_, Or.inl rfl⟩⟩
    have hcons : q.pieces = first :: (rest ++ [last]) := by simpa using hpieces
    have habsolute : q.isAbsolute = decide (first = "") := by
      rw [Bool.eq_iff_iff, isAbsolute_iff hcons]
      simp
    rw [components_eq hcons, habsolute, List.filterMap_append, List.append_assoc]
    cases hpiece : Component.ofPiece? last <;> simp [hpiece]

/-- The last component of a path that is written with a name at its end. -/
theorem Neat.components (h : p.Neat n) : ∃ cs, p.components = cs ++ [.name n] := by
  obtain ⟨hn, outer, hpieces⟩ := h
  obtain ⟨cs, hcs⟩ := exists_components_concat outer
  obtain ⟨c, hcomponents, rfl | ⟨hhere, -⟩⟩ := hcs p n hpieces
  · exact ⟨cs, by rw [hcomponents, Component.ofPiece?_name hn]; rfl⟩
  · exact absurd hhere hn.ne_here

/-! ### A text behind a path -/

/-- What is added behind a path is added to its last piece. -/
theorem exists_pieces_suffixed (p : Path) (hslash : '/' ∉ suffix.toList) :
    ∃ outer last, p.pieces = outer ++ [last] ∧ '/' ∉ last.toList ∧
      (Path.mk (p.text ++ suffix)).pieces = outer ++ [last ++ suffix] := by
  obtain ⟨outer, last, hlast, hpieces, htext⟩ := Text.exists_last_piece '/' p.text.toList
  have hboth : '/' ∉ last ++ suffix.toList := by simp [hlast, hslash]
  have hsuffixed : Text.pieces '/' (p.text ++ suffix).toList = outer ++ [last ++ suffix.toList] := by
    rw [String.toList_append]
    rcases htext with ⟨rfl, htext⟩ | ⟨front, rfl, htext⟩
    · rw [htext, Text.pieces_of_not_mem hboth, List.nil_append]
    · rw [htext, List.append_assoc, List.cons_append, Text.pieces_append_sep,
        Text.pieces_of_not_mem hboth]
  refine ⟨outer.map String.ofList, String.ofList last, ?_, by simpa using hlast, ?_⟩
  · rw [pieces, Text.split, hpieces, List.map_append, List.map_singleton]
  · rw [pieces, Text.split, hsuffixed, List.map_append, List.map_singleton, String.ofList_append,
      String.ofList_toList]

/-- A text longer than two dots is the name of an entry if it has no slash. -/
theorem isEntryName_of_long (hslash : '/' ∉ n.toList) (hlong : 2 < n.length) : IsEntryName n := by
  refine ⟨?_, ?_, ?_, hslash⟩ <;> rintro rfl <;> exact absurd hlong (by decide)

/-- A text longer than two dots makes the last piece of a path the name of an entry.  It lies
beside the entry that the path names, or else in the directory that the path leads to or out
of. -/
theorem exists_suffixed (p : Path) (hslash : '/' ∉ suffix.toList) (hlong : 2 < suffix.length) :
    ∃ cs last, (Path.mk (p.text ++ suffix)).Neat (last ++ suffix) ∧
      (Path.mk (p.text ++ suffix)).components = cs ++ [.name (last ++ suffix)] ∧
      (p.Neat last ∧ p.components = cs ++ [.name last] ∨ (∀ n, ¬ p.Neat n) ∧
        (p.components = cs ∨ p.components = cs ++ [.here] ∨ p.components = cs ++ [.up])) := by
  obtain ⟨outer, last, hpieces, hlast, hsuffixed⟩ := p.exists_pieces_suffixed hslash
  have hname : IsEntryName (last ++ suffix) := by
    refine isEntryName_of_long (by simp [hlast, hslash]) ?_
    rw [String.length_append]
    omega
  obtain ⟨cs, hcs⟩ := exists_components_concat outer
  -- a path ends with a name only if its last piece is one
  have hneat : ∀ n, p.Neat n → Component.ofPiece? last = some (.name last) := by
    rintro n ⟨hn, front, hfront⟩
    obtain ⟨-, hend⟩ := List.append_inj' (hpieces.symm.trans hfront) rfl
    obtain rfl : last = n := List.singleton_inj.1 hend
    exact Component.ofPiece?_name hn
  refine ⟨cs, last, ⟨hname, outer, hsuffixed⟩, ?_, ?_⟩
  · obtain ⟨c, hcomponents, rfl | ⟨hhere, -⟩⟩ := hcs _ _ hsuffixed
    · rw [hcomponents, Component.ofPiece?_name hname]
      rfl
    · exact absurd hhere hname.ne_here
  · obtain ⟨c, hcomponents, rfl | ⟨rfl, rfl⟩⟩ := hcs p last hpieces
    · cases hpiece : Component.ofPiece? last with
      | none =>
        refine Or.inr ⟨fun n hn => ?_, Or.inl (by simp [hcomponents, hpiece])⟩
        cases hpiece.symm.trans (hneat n hn)
      | some c =>
        obtain ⟨hroot, hhere, htext⟩ := Component.ofPiece?_eq_some hpiece
        cases c with
        | root => exact absurd rfl hroot
        | here => exact absurd rfl hhere
        | up =>
          refine Or.inr ⟨fun n hn => ?_, Or.inr (Or.inr (by simp [hcomponents, hpiece]))⟩
          cases hpiece.symm.trans (hneat n hn)
        | name n =>
          obtain rfl : n = last := htext
          have hn := isEntryName_of_ofPiece? (by rw [hpieces]; simp) hpiece
          exact Or.inl ⟨⟨hn, outer, hpieces⟩, by simp [hcomponents, hpiece]⟩
    · refine Or.inr ⟨fun n hn => ?_, Or.inr (Or.inl hcomponents)⟩
      cases (show Component.ofPiece? "." = none by decide).symm.trans (hneat n hn)

/-- A path is not refused if it is not with more behind it. -/
theorem refusal?_of_suffixed (h : (Path.mk (p.text ++ suffix)).refusal? (n ++ suffix) = none) :
    p.refusal? n = none := by
  simp only [refusal?, String.toList_append, String.utf8ByteSize_append] at h ⊢
  split at h
  · cases h
  · next hnul =>
    split at h
    · cases h
    · next hlong =>
      rw [if_neg (by simp_all), if_neg (by omega)]

end Path

end GemCourier
