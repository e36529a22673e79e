/-
GemCourier/Text/Pieces.lean

Cutting text at a separator, and putting it together again.

A text with `n` separators has `n + 1` pieces, some of them empty, and gluing
the pieces with the separator gives the text back.  Paths on disk, paths in a
remote tree and dotted version numbers are all read this way.  The work is
done on lists of characters, which is what later proofs are about; the
functions on `String` are the same ones behind the two conversions.

Main results: `glue_pieces`, and `trimmed_eq_nil`, `trimmed_eq_self` and
`getLast?_trimmed` on what trimming leaves.
-/

namespace GemCourier.Text

/-! ### Pieces -/

/-- The pieces of a text between its separators. -/
def pieces (sep : Char) : List Char → List (List Char)
  | [] => [[]]
  | c :: rest =>
    if c = sep then [] :: pieces sep rest
    else match pieces sep rest with
      | [] => [[c]]
      | piece :: others => (c :: piece) :: others

/-- Pieces put together again with a separator between any two. -/
def glue (sep : Char) : List (List Char) → List Char
  | [] => []
  | [piece] => piece
  | piece :: others => piece ++ sep :: glue sep others

theorem pieces_ne_nil (sep : Char) (text : List Char) : pieces sep text ≠ [] := by
  cases text with
  | nil => simp [pieces]
  | cons c rest =>
    unfold pieces
    split
    · simp
    · split <;> simp

/-- Nothing is lost by cutting. -/
theorem glue_pieces (sep : Char) (text : List Char) : glue sep (pieces sep text) = text := by
  induction text with
  | nil => rfl
  | cons c rest ih =>
    obtain ⟨piece, others, h⟩ := List.exists_cons_of_ne_nil (pieces_ne_nil sep rest)
    rw [h] at ih
    by_cases hc : c = sep
    · simp only [pieces, hc, if_true, h, glue, List.nil_append, ih]
    · simp only [pieces, hc, if_false, h]
      cases others with
      | nil => simpa [glue] using ih
      | cons next more => simpa [glue] using ih

/-! ### Trimming -/

/-- A text without the characters of a class at either end. -/
def trimmed (drop : Char → Bool) (text : List Char) : List Char :=
  ((text.dropWhile drop).reverse.dropWhile drop).reverse

/-- What dropping from the front leaves does not start with a dropped character. -/
theorem head?_dropWhile_ne {drop : Char → Bool} {text : List Char} {c : Char}
    (h : (text.dropWhile drop).head? = some c) : drop c = false := by
  have hhead := List.head?_dropWhile_not drop text
  rwa [h] at hhead

/-- Dropping from the front leaves nothing exactly if every character is dropped. -/
theorem dropWhile_eq_nil {drop : Char → Bool} {text : List Char} :
    text.dropWhile drop = [] ↔ ∀ c ∈ text, drop c = true := by
  induction text with
  | nil => simp
  | cons c rest ih =>
    rw [List.dropWhile_cons]
    split
    · simp_all
    · simp_all

/-- Trimming leaves nothing exactly if every character is dropped. -/
theorem trimmed_eq_nil {drop : Char → Bool} {text : List Char} :
    trimmed drop text = [] ↔ ∀ c ∈ text, drop c = true := by
  rw [trimmed, List.reverse_eq_nil_iff, dropWhile_eq_nil]
  constructor
  · intro h
    refine dropWhile_eq_nil.1 ?_
    cases hrest : text.dropWhile drop with
    | nil => rfl
    | cons c rest =>
      have hc : drop c = false := @head?_dropWhile_ne drop text _ (by simp [hrest])
      have := h c (by simp [hrest])
      simp [hc] at this
  · intro h c hc
    exact h c ((List.dropWhile_sublist drop).mem (List.mem_reverse.1 hc))

/-- What trimming leaves does not end with a dropped character. -/
theorem getLast?_trimmed {drop : Char → Bool} {text : List Char} {c : Char}
    (h : (trimmed drop text).getLast? = some c) : drop c = false := by
  rw [trimmed, List.getLast?_reverse] at h
  exact head?_dropWhile_ne h

/-- Nothing is dropped from a text that starts with a character to keep. -/
theorem dropWhile_eq_self {drop : Char → Bool} {text : List Char}
    (h : ∀ c, text.head? = some c → drop c = false) : text.dropWhile drop = text := by
  cases text with
  | nil => rfl
  | cons d rest => simp [h d rfl]

/-- What trimming leaves does not start with a dropped character. -/
theorem head?_trimmed {drop : Char → Bool} {text : List Char} {c : Char}
    (h : (trimmed drop text).head? = some c) : drop c = false := by
  refine Classical.byContradiction fun hne => ?_
  have hc : c ∈ text.dropWhile drop := by
    have := List.mem_of_mem_head? h
    rw [trimmed, List.mem_reverse] at this
    exact List.mem_reverse.1 ((List.dropWhile_sublist drop).mem this)
  obtain ⟨d, rest, hrest⟩ : ∃ d rest, text.dropWhile drop = d :: rest :=
    List.exists_cons_of_ne_nil (List.ne_nil_of_mem hc)
  have hd : drop d = false := @head?_dropWhile_ne drop text _ (by simp [hrest])
  have hkeep : trimmed drop text = d :: (rest.reverse.dropWhile drop).reverse := by
    rw [trimmed, hrest, List.reverse_cons, List.dropWhile_append]
    split
    · next hall =>
      have : rest.reverse.dropWhile drop = [] := by simpa using hall
      simp [hd, this]
    · simp
  rw [hkeep, List.head?_cons, Option.some.injEq] at h
  exact hne (h ▸ hd)

/-- A text that neither starts nor ends with a dropped character is left alone. -/
theorem trimmed_eq_self {drop : Char → Bool} {text : List Char}
    (hfirst : ∀ c, text.head? = some c → drop c = false)
    (hlast : ∀ c, text.getLast? = some c → drop c = false) :
    trimmed drop text = text := by
  rw [trimmed, dropWhile_eq_self hfirst, dropWhile_eq_self (by simpa using hlast),
    List.reverse_reverse]

/-- Something is left as soon as one character is not dropped. -/
theorem trimmed_ne_nil {drop : Char → Bool} {text : List Char} {c : Char}
    (hc : c ∈ text) (hd : drop c = false) : trimmed drop text ≠ [] := fun h => by
  simp [trimmed_eq_nil.1 h c hc] at hd

/-! ### On strings -/

/-- The pieces of a string between its separators. -/
def split (sep : Char) (text : String) : List String :=
  (pieces sep text.toList).map String.ofList

/-- A string without the characters of a class at either end. -/
def trim (drop : Char → Bool) (text : String) : String :=
  String.ofList (trimmed drop text.toList)

end GemCourier.Text
