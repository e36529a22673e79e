/-
GemCourier/Proofs/Release/Spelled.lean

Versions stand in the order of the numbers that they spell, as far as 64 bits go.

The digits at the front of a piece spell a natural number, which has no bound.  What a
version reads as is that number where it fits 64 bits, and zero where it does not
(`numbers_eq_held`).  So the comparison is the one of the spelled numbers for versions whose
numbers all fit, and for no other version: with the numbers left out that do not fit, a
version spells smaller numbers, and it compares as equal to what it was.

Two versions are told apart where their spelled numbers first differ
(`compareNumbers_of_first`).  If the larger number there fits, it is read as larger; if it
does not, and the smaller one is not zero, the larger number is read as the smaller one.

Main results: `decimal_eq_ofDigits`, `numbers_eq_held`, `compareNumbers_of_first`,
`spelled_readable`, `order_spelled`.
-/
import Mathlib.Data.List.Basic
import Mathlib.Data.List.Induction
import Mathlib.Data.List.TakeWhile
import Mathlib.Data.Nat.Digits.Defs
import GemCourier.Proofs.Release.Versions

namespace GemCourier

namespace Version

open Text

/-! ### Spelled numbers -/

/-- The number that the digits at the front of a piece spell, the last of them the ones. -/
def spelledNumber (piece : List Char) : Nat :=
  Nat.ofDigits 10 ((piece.takeWhile Char.isDigit).reverse.map digitValue)

/-- The numbers that the pieces of a version spell, the blanks around it left out. -/
def spelled (version : String) : List Nat :=
  (pieces '.' (trimmed isBlank version.toList)).map spelledNumber

/-- The number at a place in a version; behind the last piece there are zeros. -/
def numberAt (version : String) (place : Nat) : Nat :=
  (spelled version).getD place 0

/-- What 64 bits hold of a number. -/
def held (n : Nat) : Nat := if n < numberLimit then n else 0

/-- How the spelled numbers of one version stand to those of another, widened with zeros to
one length and compared by their first difference. -/
def orderSpelled (a b : String) : Ordering :=
  let width := max (spelled a).length (spelled b).length
  compare ((spelled a).rightpad width 0) ((spelled b).rightpad width 0)

/-- Every number of the version fits 64 bits. -/
def Fits (version : String) : Prop := ∀ n ∈ spelled version, n < numberLimit

theorem held_of_lt {n : Nat} (h : n < numberLimit) : held n = n := if_pos h

theorem held_of_le {n : Nat} (h : numberLimit ≤ n) : held n = 0 := if_neg (not_lt.2 h)

theorem held_lt (n : Nat) : held n < numberLimit := by
  rw [held]
  split
  · next h => exact h
  · decide

/-- Reading digits from the left gives the number that they spell. -/
theorem decimal_eq_ofDigits (digits : List Char) :
    decimal digits = Nat.ofDigits 10 (digits.reverse.map digitValue) := by
  induction digits using List.reverseRecOn with
  | nil => rfl
  | append_singleton digits c ih =>
    rw [List.reverse_concat, List.map_cons, Nat.ofDigits_cons, ← ih, decimal, List.foldl_concat,
      ← decimal, Nat.add_comm]

theorem leadingNumber_eq_held (piece : List Char) :
    leadingNumber piece = held (spelledNumber piece) := by
  rw [leadingNumber, decimal_eq_ofDigits]
  rfl

/-- A version reads as what 64 bits hold of the numbers that it spells. -/
theorem numbers_eq_held (version : String) : numbers version = (spelled version).map held := by
  rw [numbers_eq_readings, readings, spelled, List.map_map]
  exact List.map_congr_left fun piece _ => leadingNumber_eq_held piece

theorem map_held_of_fits {version : String} (h : Fits version) :
    (spelled version).map held = spelled version :=
  (List.map_congr_left fun n hn => held_of_lt (h n hn)).trans (List.map_id _)

/-- Numbers beyond those of a version are zero, read or spelled. -/
theorem getD_numbers (version : String) (place : Nat) :
    (numbers version).getD place 0 = held (numberAt version place) := by
  rw [numbers_eq_held, numberAt, List.getD_eq_getElem?_getD, List.getD_eq_getElem?_getD,
    List.getElem?_map]
  cases (spelled version)[place]? <;> rfl

/-! ### The first difference -/

theorem orderSpelled_eq (a b : String) :
    orderSpelled a b = compareNumbers (spelled a) (spelled b) :=
  (compareNumbers_eq_compare (le_max_left _ _) (le_max_right _ _)).symm

/-- Numbers are told apart by the first place where they differ. -/
theorem compareNumbers_of_first {xs ys : List Nat} {place : Nat}
    (hsame : ∀ i < place, xs.getD i 0 = ys.getD i 0) (hless : ys.getD place 0 < xs.getD place 0) :
    compareNumbers xs ys = .gt := by
  fun_induction compareNumbers xs ys generalizing place with
  | case1 => exact absurd hless (Nat.lt_irrefl _)
  | case2 x xs ih =>
    cases place with
    | zero =>
      have hgt : compare x 0 = .gt := Nat.compare_eq_gt.2 hless
      rw [hgt, Ordering.gt_then]
    | succ place =>
      obtain rfl : x = 0 := hsame 0 (Nat.succ_pos place)
      exact ih (fun i hi => hsame (i + 1) (Nat.succ_lt_succ hi)) hless
  | case3 y ys ih =>
    cases place with
    | zero => exact absurd hless (Nat.not_lt_zero _)
    | succ place =>
      obtain rfl : 0 = y := hsame 0 (Nat.succ_pos place)
      exact ih (fun i hi => hsame (i + 1) (Nat.succ_lt_succ hi)) hless
  | case4 x xs y ys ih =>
    cases place with
    | zero =>
      have hgt : compare x y = .gt := Nat.compare_eq_gt.2 hless
      rw [hgt, Ordering.gt_then]
    | succ place =>
      obtain rfl : x = y := hsame 0 (Nat.succ_pos place)
      have heq : compare x x = .eq := Std.ReflCmp.compare_self
      rw [heq, Ordering.eq_then]
      exact ih (fun i hi => hsame (i + 1) (Nat.succ_lt_succ hi)) hless

/-- Lists of one length that compare as equal are equal. -/
theorem eq_of_compareNumbers {xs ys : List Nat} (hlength : xs.length = ys.length)
    (h : compareNumbers xs ys = .eq) : xs = ys := by
  rw [compareNumbers_eq_compare le_rfl hlength.ge, List.rightpad, List.rightpad, hlength,
    Nat.sub_self, List.replicate_zero, List.append_nil, List.append_nil] at h
  exact Std.LawfulEqCmp.eq_of_compare h

/-! ### Versions that can be read -/

/-- The digits at the front of a piece, if the number that they spell fits. -/
def legible (piece : List Char) : List Char :=
  if spelledNumber piece < numberLimit then piece.takeWhile Char.isDigit else []

/-- The version in which a number that does not fit is left out, as are all characters that
spell no number. -/
def readable (version : String) : String :=
  String.ofList (glue '.' ((pieces '.' (trimmed isBlank version.toList)).map legible))

theorem isDigit_of_mem_legible {piece : List Char} {c : Char} (h : c ∈ legible piece) :
    c.isDigit = true := by
  rw [legible] at h
  split at h
  · exact List.mem_takeWhile_imp h
  · cases h

theorem spelledNumber_legible (piece : List Char) :
    spelledNumber (legible piece) = held (spelledNumber piece) := by
  rw [legible]
  split
  · next hfits => rw [held_of_lt hfits, spelledNumber, List.takeWhile_idem, spelledNumber]
  · next hlarge =>
    rw [held_of_le (not_lt.1 hlarge)]
    rfl

/-- There are only digits and dots in it, so nothing is trimmed. -/
theorem trimmed_readable (version : String) :
    trimmed isBlank (readable version).toList = (readable version).toList := by
  have hkeep : ∀ c ∈ (readable version).toList, isBlank c = false := by
    intro c hc
    rw [readable, String.toList_ofList] at hc
    rcases mem_glue hc with rfl | ⟨text, htext, hmem⟩
    · decide
    · obtain ⟨piece, -, rfl⟩ := List.mem_map.1 htext
      refine Bool.eq_false_iff.2 fun hblank => ?_
      exact absurd (isDigit_of_mem_legible hmem) (Bool.eq_false_iff.1 (isDigit_of_isBlank hblank))
  exact trimmed_eq_self (fun c hc => hkeep c (List.mem_of_mem_head? hc))
    fun c hc => hkeep c (List.mem_of_mem_getLast? hc)

/-- There are no dots in it but those it is glued with, so it is cut where it was glued. -/
theorem pieces_readable (version : String) :
    pieces '.' (readable version).toList =
      (pieces '.' (trimmed isBlank version.toList)).map legible := by
  rw [readable, String.toList_ofList]
  apply pieces_glue
  · exact fun hnil => pieces_ne_nil '.' _ (List.map_eq_nil_iff.1 hnil)
  · intro text htext hdot
    obtain ⟨piece, -, rfl⟩ := List.mem_map.1 htext
    exact absurd (isDigit_of_mem_legible hdot) (by decide)

/-- The readable version spells what 64 bits hold of the numbers. -/
theorem spelled_readable (version : String) :
    spelled (readable version) = (spelled version).map held := by
  rw [spelled, trimmed_readable, pieces_readable, spelled, List.map_map, List.map_map]
  exact List.map_congr_left fun piece _ => spelledNumber_legible piece

theorem fits_readable (version : String) : Fits (readable version) := by
  intro n hn
  rw [spelled_readable] at hn
  obtain ⟨m, -, rfl⟩ := List.mem_map.1 hn
  exact held_lt m

/-- A version cannot be told from the one in which the numbers that do not fit are left out. -/
theorem order_readable (version : String) : order version (readable version) = .eq := by
  have hsame : numbers (readable version) = numbers version := by
    rw [numbers_eq_held, map_held_of_fits (fits_readable version), spelled_readable,
      numbers_eq_held]
  rw [order, hsame]
  exact Std.ReflCmp.compare_self

/-! ### The order of what is spelled -/

theorem order_of_fits {a b : String} (ha : Fits a) (hb : Fits b) :
    order a b = orderSpelled a b := by
  rw [orderSpelled_eq, order, numbers_eq_held, numbers_eq_held, map_held_of_fits ha,
    map_held_of_fits hb]

/-- What stands to every version that fits as its numbers say fits itself. -/
theorem fits_of_order {a : String} (h : ∀ b, Fits b → order a b = orderSpelled a b) : Fits a := by
  have heq : orderSpelled a (readable a) = .eq := by
    rw [← h _ (fits_readable a), order_readable]
  rw [orderSpelled_eq, spelled_readable] at heq
  have hself : spelled a = (spelled a).map held := eq_of_compareNumbers (by simp) heq
  intro n hn
  rw [hself] at hn
  obtain ⟨m, -, rfl⟩ := List.mem_map.1 hn
  exact held_lt m

/-- **The order of spelled numbers.**  A version whose numbers fit 64 bits stands to the others
that fit as the numbers it spells stand to theirs, first difference first, with zeros behind
the shorter one; and only such a version does.  Where the numbers of two versions first
differ, the larger one makes its version newer if it fits.  If it does not fit, and the
smaller one is neither zero nor too large itself, the version with the larger number is read
as the older one. -/
theorem order_spelled (a b : String) :
    ((∀ other, Fits other → order a other = orderSpelled a other) ↔ Fits a) ∧
    ∀ place, (∀ i < place, numberAt a i = numberAt b i) → numberAt b place < numberAt a place →
      orderSpelled a b = .gt ∧
      (numberAt a place < numberLimit → isNewer a b = true) ∧
      (numberLimit ≤ numberAt a place → 0 < numberAt b place → numberAt b place < numberLimit →
        isNewer b a = true) := by
  refine ⟨⟨fits_of_order, fun ha _ hb => order_of_fits ha hb⟩, fun place hsame hless => ?_⟩
  -- equal numbers are read as equal ones, whether they fit or not
  have hread : ∀ i < place, (numbers a).getD i 0 = (numbers b).getD i 0 := by
    intro i hi
    rw [getD_numbers, getD_numbers, hsame i hi]
  refine ⟨?_, fun hfits => isNewer_eq_true_iff.2 ?_, fun hlarge hpos hfits =>
    isNewer_eq_true_iff.2 ?_⟩
  · rw [orderSpelled_eq]
    exact compareNumbers_of_first hsame hless
  · apply compareNumbers_of_first hread
    rwa [getD_numbers, getD_numbers, held_of_lt hfits, held_of_lt (hless.trans hfits)]
  · apply compareNumbers_of_first fun i hi => (hread i hi).symm
    rwa [getD_numbers, getD_numbers, held_of_le hlarge, held_of_lt hfits]

/-- `1.18446744073709551616` spells 2^64 behind the first dot and is read as older than `1.9`;
one less would be read as newer. -/
theorem order_spelled_overlong :
    orderSpelled "1.18446744073709551616" "1.9" = .gt ∧
      isNewer "1.9" "1.18446744073709551616" = true ∧
      isNewer "1.18446744073709551615" "1.9" = true := by
  have hlarge : spelled "1.18446744073709551616" = [1, 18446744073709551616] := by decide +kernel
  have hlargest : spelled "1.18446744073709551615" = [1, 18446744073709551615] := by
    decide +kernel
  have hnine : spelled "1.9" = [1, 9] := by decide +kernel
  obtain ⟨-, hover⟩ := order_spelled "1.18446744073709551616" "1.9"
  obtain ⟨-, hfit⟩ := order_spelled "1.18446744073709551615" "1.9"
  obtain ⟨hgt, -, holder⟩ := hover 1 (by simp [numberAt, hlarge, hnine])
    (by simp [numberAt, hlarge, hnine])
  obtain ⟨-, hnewer, -⟩ := hfit 1 (by simp [numberAt, hlargest, hnine])
    (by simp [numberAt, hlargest, hnine])
  exact ⟨hgt, holder (by simp [numberAt, hlarge, numberLimit]) (by simp [numberAt, hnine])
    (by simp [numberAt, hnine, numberLimit]), hnewer (by simp [numberAt, hlargest, numberLimit])⟩

end Version

end GemCourier
