/-
GemCourier/Proofs/Text/Pieces.lean

Texts that are put together, and what is trimmed from them.

A separator cuts a text in two whatever stands on either side of it, so the pieces of a text
that was glued are those it was glued from.  Trimming takes characters of a class from the
ends only, and stops at the first one of another class; what it leaves is the one text in the
middle that neither starts nor ends with the class (`trimmed_eq_of_surrounded`).

Main results: `pieces_append_sep`, `pieces_glue`, `exists_trimmed`, `trimmed_eq_of_surrounded`.
-/
import GemCourier.Text.Pieces

namespace GemCourier.Text

/-! ### Pieces of texts put together -/

variable {sep : Char}

theorem pieces_append_sep (a b : List Char) :
    pieces sep (a ++ sep :: b) = pieces sep a ++ pieces sep b := by
  induction a with
  | nil => simp [pieces]
  | cons c rest ih =>
    obtain ⟨piece, others, h⟩ := List.exists_cons_of_ne_nil (pieces_ne_nil sep rest)
    rw [h] at ih
    by_cases hc : c = sep
    · simp [pieces, hc, ih, h]
    · simp [pieces, hc, ih, h]

theorem pieces_of_not_mem {text : List Char} (h : sep ∉ text) : pieces sep text = [text] := by
  induction text with
  | nil => rfl
  | cons c rest ih =>
    have hc : c ≠ sep := fun e => h (by simp [e])
    have hrest : sep ∉ rest := fun hmem => h (by simp [hmem])
    simp [pieces, hc, ih hrest]

theorem not_mem_of_mem_pieces {text piece : List Char} (h : piece ∈ pieces sep text) :
    sep ∉ piece := by
  induction text generalizing piece with
  | nil => simp_all [pieces]
  | cons c rest ih =>
    obtain ⟨first, others, hpieces⟩ := List.exists_cons_of_ne_nil (pieces_ne_nil sep rest)
    rw [hpieces] at ih
    by_cases hc : c = sep
    · simp only [pieces, hc, if_true, hpieces, List.mem_cons] at h
      rcases h with rfl | h
      · simp
      · exact ih (by simpa using h)
    · simp only [pieces, hc, if_false, hpieces, List.mem_cons] at h
      rcases h with rfl | h
      · have hfirst : sep ∉ first := ih (by simp)
        simp [Ne.symm hc, hfirst]
      · exact ih (by simp [h])

/-- Texts without separators are the pieces of what they are glued to. -/
theorem pieces_glue {texts : List (List Char)} (hne : texts ≠ [])
    (h : ∀ text ∈ texts, sep ∉ text) : pieces sep (glue sep texts) = texts := by
  induction texts with
  | nil => exact absurd rfl hne
  | cons text others ih =>
    have htext : pieces sep text = [text] := pieces_of_not_mem (h text List.mem_cons_self)
    cases others with
    | nil => exact htext
    | cons next more =>
      have hmore := ih (List.cons_ne_nil next more) fun t ht => h t (List.mem_cons_of_mem _ ht)
      rw [glue, pieces_append_sep, htext, hmore, List.singleton_append]
      exact List.cons_ne_nil next more

/-- Gluing is what the standard library calls `intercalate`. -/
theorem glue_eq_intercalate (sep : Char) (texts : List (List Char)) :
    glue sep texts = [sep].intercalate texts := by
  fun_induction glue sep texts with
  | case1 => rfl
  | case2 text => simp
  | case3 text others hothers ih =>
    obtain ⟨next, more, rfl⟩ := List.exists_cons_of_ne_nil fun e => hothers e
    rw [ih, List.intercalate_cons_cons, List.append_assoc, List.singleton_append]

/-- What is glued holds separators and what the texts hold. -/
theorem mem_glue {texts : List (List Char)} {c : Char} (h : c ∈ glue sep texts) :
    c = sep ∨ ∃ text ∈ texts, c ∈ text := by
  fun_induction glue sep texts with
  | case1 => cases h
  | case2 text => exact Or.inr ⟨text, List.mem_cons_self, h⟩
  | case3 text others _ ih =>
    rcases List.mem_append.1 h with htext | hrest
    · exact Or.inr ⟨text, List.mem_cons_self, htext⟩
    · rcases List.mem_cons.1 hrest with rfl | hothers
      · exact Or.inl rfl
      · rcases ih hothers with hsep | ⟨inner, hinner, hc⟩
        · exact Or.inl hsep
        · exact Or.inr ⟨inner, List.mem_cons_of_mem _ hinner, hc⟩

/-! ### What is trimmed -/

variable {drop : Char → Bool} {before text after : List Char}

theorem trimmed_append_right (h : ∀ c ∈ after, drop c = true) :
    trimmed drop (text ++ after) = trimmed drop text := by
  rw [trimmed, trimmed, List.dropWhile_append]
  split
  · next hall =>
    rw [List.isEmpty_iff.1 hall, dropWhile_eq_nil.2 h]
  · rw [List.reverse_append, List.dropWhile_append_of_pos fun c hc => h c (List.mem_reverse.1 hc)]

theorem trimmed_surround (hbefore : ∀ c ∈ before, drop c = true)
    (hafter : ∀ c ∈ after, drop c = true) :
    trimmed drop (before ++ text ++ after) = trimmed drop text := by
  rw [trimmed_append_right hafter, trimmed, List.dropWhile_append_of_pos hbefore, trimmed]

/-- Only the front of a text is trimmed if its last character is to keep. -/
theorem trimmed_append_kept {last : Char} (hlast : drop last = false) :
    trimmed drop (text ++ [last]) = text.dropWhile drop ++ [last] := by
  rw [trimmed, List.dropWhile_append]
  split
  · next hall =>
    rw [List.isEmpty_iff.1 hall]
    simp [hlast]
  · simp [hlast]

/-- What is left of a text without its front is the trimmed text and what is trimmed from
the end. -/
theorem exists_dropWhile_eq (drop : Char → Bool) (text : List Char) :
    ∃ after, text.dropWhile drop = trimmed drop text ++ after ∧ ∀ c ∈ after, drop c = true := by
  refine ⟨((text.dropWhile drop).reverse.takeWhile drop).reverse, ?_, fun c hc => ?_⟩
  · rw [trimmed, ← List.reverse_append, List.takeWhile_append_dropWhile, List.reverse_reverse]
  · have hall := List.all_takeWhile (p := drop) (l := (text.dropWhile drop).reverse)
    exact List.all_eq_true.1 hall c (List.mem_reverse.1 hc)

/-- Trimming takes characters of the class from the front and from the end, and nothing else. -/
theorem exists_trimmed (drop : Char → Bool) (text : List Char) :
    ∃ before after, text = before ++ trimmed drop text ++ after ∧
      (∀ c ∈ before, drop c = true) ∧ ∀ c ∈ after, drop c = true := by
  obtain ⟨after, hafter, hdropped⟩ := exists_dropWhile_eq drop text
  refine ⟨text.takeWhile drop, after, ?_, List.all_eq_true.1 List.all_takeWhile, hdropped⟩
  rw [List.append_assoc, ← hafter, List.takeWhile_append_dropWhile]

/-- What stands between characters of the class, and neither starts nor ends with one, is what
trimming leaves. -/
theorem trimmed_eq_of_surrounded (hbefore : ∀ c ∈ before, drop c = true)
    (hafter : ∀ c ∈ after, drop c = true) (hfirst : ∀ c, text.head? = some c → drop c = false)
    (hlast : ∀ c, text.getLast? = some c → drop c = false) :
    trimmed drop (before ++ text ++ after) = text := by
  rw [trimmed_surround hbefore hafter, trimmed_eq_self hfirst hlast]

end GemCourier.Text
