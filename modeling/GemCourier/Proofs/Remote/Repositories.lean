/-
GemCourier/Proofs/Remote/Repositories.lean

Which texts name a repository.

A text is cut at all its slashes at once, and a repository has two pieces.  Seen from the
first slash, that is the same as looking at what stands before it and at what stands behind
it, which holds no other one (`parse_of_first_slash`).  So a text names at most one
repository, the one that is written as that text, and every repository whose owner and name
can stand between slashes is named by how it is written.

Main results: `parse_of_first_slash`, `parse_eq_ok_iff`, `parse_grammar`.
-/
import Mathlib.Tactic.ByContra
import GemCourier.Proofs.Text.Pieces
import GemCourier.Remote.Repository

namespace GemCourier.Repository

variable {text : String} {r : Repository}

/-- Owner and name of the repository are texts that can stand between slashes. -/
structure WellNamed (r : Repository) : Prop where
  owner_nonempty : r.owner ≠ ""
  owner_no_slash : '/' ∉ r.owner.toList
  name_nonempty : r.name ≠ ""
  name_no_slash : '/' ∉ r.name.toList

/-- There is exactly one slash in the text, with at least one character on each side. -/
structure Divided (text : String) : Prop where
  one_slash : text.toList.count '/' = 1
  sides : ∃ before after, before ≠ [] ∧ after ≠ [] ∧ text.toList = before ++ '/' :: after

/-! ### The first slash -/

theorem parse_of_no_slash (h : '/' ∉ text.toList) :
    parse text = .error (.missingSlash text) := by
  rw [parse, Text.split, Text.pieces_of_not_mem h]
  rfl

/-- What a text names is decided by what stands before its first slash and what stands behind
it. -/
theorem parse_of_first_slash {before after : List Char}
    (htext : text.toList = before ++ '/' :: after) (hfirst : '/' ∉ before) :
    parse text = if before = [] ∨ after = [] ∨ '/' ∈ after then .error (.malformed text)
      else .ok ⟨String.ofList before, String.ofList after⟩ := by
  have hpieces : Text.pieces '/' text.toList = before :: Text.pieces '/' after := by
    rw [htext, Text.pieces_append_sep, Text.pieces_of_not_mem hfirst, List.singleton_append]
  rw [parse, Text.split, hpieces]
  by_cases hslash : '/' ∈ after
  · -- another slash, another piece
    obtain ⟨middle, rest, rfl, hmiddle⟩ := List.eq_append_cons_of_mem hslash
    obtain ⟨last, more, hrest⟩ := List.exists_cons_of_ne_nil (Text.pieces_ne_nil '/' rest)
    rw [Text.pieces_append_sep, Text.pieces_of_not_mem hmiddle, hrest,
      if_pos (Or.inr (Or.inr hslash))]
    rfl
  · rw [Text.pieces_of_not_mem hslash]
    show (if String.ofList before = "" ∨ String.ofList after = "" then _ else _) = _
    simp only [String.ofList_eq_empty_iff, hslash, or_false]

/-! ### Repositories and texts -/

/-- The one slash is the first one, and none is left on either side of it. -/
theorem Divided.exists_sides (h : Divided text) : ∃ before after, before ≠ [] ∧ after ≠ [] ∧
    '/' ∉ before ∧ '/' ∉ after ∧ text.toList = before ++ '/' :: after := by
  obtain ⟨before, after, hbefore, hafter, htext⟩ := h.sides
  have hcount : before.count '/' + (after.count '/' + 1) = 1 := by
    rw [← List.count_cons_self, ← List.count_append, ← htext]
    exact h.one_slash
  exact ⟨before, after, hbefore, hafter, List.count_eq_zero.1 (by omega),
    List.count_eq_zero.1 (by omega), htext⟩

theorem divided_of_sides {before after : List Char} (hbefore : before ≠ []) (hafter : after ≠ [])
    (hfirst : '/' ∉ before) (hlast : '/' ∉ after) (htext : text.toList = before ++ '/' :: after) :
    Divided text where
  one_slash := by
    rw [htext, List.count_append, List.count_cons_self, List.count_eq_zero.2 hfirst,
      List.count_eq_zero.2 hlast]
  sides := ⟨before, after, hbefore, hafter, htext⟩

theorem toList_text (r : Repository) :
    r.text.toList = r.owner.toList ++ '/' :: r.name.toList := by
  simp [Repository.text]

/-- The divided texts are those that well-named repositories are written as. -/
theorem divided_iff_exists_text : Divided text ↔ ∃ r, WellNamed r ∧ r.text = text := by
  constructor
  · intro h
    obtain ⟨before, after, hbefore, hafter, hfirst, hlast, htext⟩ := h.exists_sides
    refine ⟨⟨String.ofList before, String.ofList after⟩, ⟨?_, ?_, ?_, ?_⟩, ?_⟩
    · exact mt String.ofList_eq_empty_iff.1 hbefore
    · rwa [String.toList_ofList]
    · exact mt String.ofList_eq_empty_iff.1 hafter
    · rwa [String.toList_ofList]
    · rw [← String.toList_inj, toList_text, htext, String.toList_ofList, String.toList_ofList]
  · rintro ⟨r, h, rfl⟩
    exact divided_of_sides (mt String.toList_eq_nil_iff.1 h.owner_nonempty)
      (mt String.toList_eq_nil_iff.1 h.name_nonempty) h.owner_no_slash h.name_no_slash
      (toList_text r)

/-- What is written for a well-named repository names it. -/
theorem parse_text (h : r.WellNamed) : parse r.text = .ok r := by
  rw [parse_of_first_slash (toList_text r) h.owner_no_slash, if_neg, String.ofList_toList,
    String.ofList_toList]
  rintro (hnil | hnil | hslash)
  · exact h.owner_nonempty (String.toList_eq_nil_iff.1 hnil)
  · exact h.name_nonempty (String.toList_eq_nil_iff.1 hnil)
  · exact h.name_no_slash hslash

/-- A text with slashes that is not divided by one of them names nothing. -/
theorem parse_of_not_divided (hslash : '/' ∈ text.toList) (h : ¬ Divided text) :
    parse text = .error (.malformed text) := by
  obtain ⟨before, after, htext, hfirst⟩ := List.eq_append_cons_of_mem hslash
  rw [parse_of_first_slash htext hfirst, if_pos]
  by_contra hsides
  obtain ⟨hbefore, hsides⟩ := not_or.1 hsides
  obtain ⟨hafter, hlast⟩ := not_or.1 hsides
  exact h (divided_of_sides hbefore hafter hfirst hlast htext)

/-- A text names the well-named repository that is written as that text, and no other one. -/
theorem parse_eq_ok_iff : parse text = .ok r ↔ r.WellNamed ∧ r.text = text := by
  constructor
  · intro h
    by_cases hdivided : Divided text
    · obtain ⟨s, hs, rfl⟩ := divided_iff_exists_text.1 hdivided
      obtain rfl : s = r := Except.ok.inj ((parse_text hs).symm.trans h)
      exact ⟨hs, rfl⟩
    · by_cases hslash : '/' ∈ text.toList
      · rw [parse_of_not_divided hslash hdivided] at h
        cases h
      · rw [parse_of_no_slash hslash] at h
        cases h
  · rintro ⟨h, rfl⟩
    exact parse_text h

/-- A repository that is named by a text is well named. -/
theorem wellNamed_of_parse (h : parse text = .ok r) : r.WellNamed :=
  (parse_eq_ok_iff.1 h).1

/-- **The grammar of repositories.**  A text names a repository exactly if it has one slash with
something on each side; the repository is written as that text, and what is written for a
well-named repository names it.  A text without a slash is refused for the want of it, and
every other one as malformed, and the refusal carries the text. -/
theorem parse_grammar (text : String) :
    ((∃ r, parse text = .ok r) ↔ Divided text) ∧
    (∀ r, parse text = .ok r → r.text = text) ∧
    (∀ owner name : String, owner ≠ "" → '/' ∉ owner.toList → name ≠ "" → '/' ∉ name.toList →
      parse (Repository.mk owner name).text = .ok ⟨owner, name⟩) ∧
    ('/' ∉ text.toList → parse text = .error (.missingSlash text)) ∧
    ('/' ∈ text.toList → ¬ Divided text → parse text = .error (.malformed text)) := by
  refine ⟨?_, fun r h => (parse_eq_ok_iff.1 h).2,
    fun owner name howner hfirst hname hlast => parse_text ⟨howner, hfirst, hname, hlast⟩,
    parse_of_no_slash, parse_of_not_divided⟩
  rw [divided_iff_exists_text]
  exact exists_congr fun r => parse_eq_ok_iff

/-- `o/n` and a text with three slashes between which there is nothing. -/
theorem parse_grammar_slashes :
    parse "o/n" = .ok ⟨"o", "n"⟩ ∧ (Repository.mk "o" "n").text = "o/n" ∧
      parse "///" = .error (.malformed "///") ∧ parse "on" = .error (.missingSlash "on") := by
  have hslashes : ¬ Divided "///" := fun h => absurd h.one_slash (by decide)
  obtain ⟨-, hwritten, hnamed, -⟩ := parse_grammar "o/n"
  obtain ⟨-, -, -, -, hmalformed⟩ := parse_grammar "///"
  obtain ⟨-, -, -, hmissing, -⟩ := parse_grammar "on"
  have hparse : parse "o/n" = .ok ⟨"o", "n"⟩ :=
    hnamed "o" "n" (by decide) (by decide) (by decide) (by decide)
  exact ⟨hparse, hwritten _ hparse, hmalformed (by decide) hslashes, hmissing (by decide)⟩

end GemCourier.Repository
