/-
GemCourier/Proofs/Release/Versions.lean

Versions stand in a linear order, up to zeros at the end and blanks around them.

The comparison reads two lists of different lengths as if the shorter one went on with
zeros.  Widened to one length, they are compared as lists are, number by number, and the
laws of an order are those of the library: what is left to see is that any length will
do, so that three versions can be widened to the longest of them
(`compareNumbers_eq_compare`).  What a version reads as depends on its text only through
the numbers at the front of its pieces (`readings`): blanks at the end cannot reach a
number, and `.0` is one more zero.

Main results: `compareNumbers_eq_compare`, `numbers_append_zero`, `stripped_surround`,
`order_laws`.
-/
import GemCourier.Proofs.Text.Pieces
import GemCourier.Release.Version

namespace GemCourier

/-! ### Blanks around a text -/

namespace Text

/-- Blanks around a text are stripped from it. -/
theorem stripped_surround {before after : String} (hbefore : ∀ c ∈ before.toList, isBlank c = true)
    (hafter : ∀ c ∈ after.toList, isBlank c = true) (text : String) :
    stripped (before ++ text ++ after) = stripped text := by
  rw [stripped, stripped, trim, trim, String.toList_append, String.toList_append,
    trimmed_surround hbefore hafter]

/-- A blank is no digit. -/
theorem isDigit_of_isBlank {c : Char} (h : isBlank c = true) : c.isDigit = false := by
  rw [Bool.eq_false_iff]
  intro hdigit
  simp only [Char.isDigit, Bool.and_eq_true, decide_eq_true_eq, ge_iff_le] at hdigit
  have hlow : 48 ≤ c.toNat := UInt32.le_iff_toNat_le.1 hdigit.1
  have hhigh : c.toNat ≤ 57 := UInt32.le_iff_toNat_le.1 hdigit.2
  simp only [isBlank, blankRuns, List.any_cons, List.any_nil, Bool.or_false, Bool.or_eq_true,
    Bool.and_eq_true, decide_eq_true_eq] at h
  omega

end Text

namespace Version

open Text

/-! ### The numbers of a version -/

/-- The numbers that a text reads as, blanks and all. -/
def readings (text : List Char) : List Nat :=
  (pieces '.' text).map leadingNumber

theorem numbers_eq_readings (version : String) :
    numbers version = readings (trimmed isBlank version.toList) := by
  rw [numbers, stripped, trim, String.toList_ofList, readings]

theorem takeWhile_isDigit_append {after : List Char} (h : ∀ c ∈ after, c.isDigit = false)
    (piece : List Char) :
    (piece ++ after).takeWhile Char.isDigit = piece.takeWhile Char.isDigit := by
  induction piece with
  | nil =>
    cases after with
    | nil => rfl
    | cons c rest => rw [List.nil_append, List.takeWhile_cons, h c List.mem_cons_self]; rfl
  | cons c rest ih => rw [List.cons_append, List.takeWhile_cons, List.takeWhile_cons, ih]

/-- A number ends where no digit follows. -/
theorem leadingNumber_append {after : List Char} (h : ∀ c ∈ after, c.isDigit = false)
    (piece : List Char) : leadingNumber (piece ++ after) = leadingNumber piece := by
  rw [leadingNumber, leadingNumber, takeWhile_isDigit_append h]

/-- What is neither a digit nor a dot is in no number at the end of a text. -/
theorem readings_append {after : List Char} (hdigit : ∀ c ∈ after, c.isDigit = false)
    (hdot : '.' ∉ after) (text : List Char) : readings (text ++ after) = readings text := by
  obtain ⟨outer, last, hpieces, hlast⟩ : ∃ outer last, pieces '.' text = outer ++ [last] ∧
      pieces '.' (text ++ after) = outer ++ [last ++ after] := by
    induction text with
    | nil => exact ⟨[], [], rfl, pieces_of_not_mem hdot⟩
    | cons c rest ih =>
      obtain ⟨outer, last, hpieces, hlast⟩ := ih
      by_cases hc : c = '.'
      · exact ⟨[] :: outer, last, by simp [pieces, hc, hpieces], by simp [pieces, hc, hlast]⟩
      · cases outer with
        | nil => exact ⟨[], c :: last, by simp [pieces, hc, hpieces], by simp [pieces, hc, hlast]⟩
        | cons first more =>
          exact ⟨(c :: first) :: more, last, by simp [pieces, hc, hpieces],
            by simp [pieces, hc, hlast]⟩
  rw [readings, readings, hpieces, hlast, List.map_append, List.map_append, List.map_singleton,
    List.map_singleton, leadingNumber_append hdigit]

/-- One more `.0` is one more zero. -/
theorem numbers_append_zero (version : String) :
    numbers (version ++ ".0") = numbers version ++ [0] := by
  have htrimmed : trimmed isBlank (version ++ ".0").toList =
      version.toList.dropWhile isBlank ++ '.' :: ['0'] := by
    rw [String.toList_append, show ".0".toList = ['.'] ++ ['0'] from rfl, ← List.append_assoc,
      trimmed_append_kept (by decide), List.dropWhile_append]
    split
    · next hall => rw [List.isEmpty_iff.1 hall]; rfl
    · simp
  obtain ⟨after, hfront, hafter⟩ := exists_dropWhile_eq isBlank version.toList
  have hdigit : ∀ c ∈ after, c.isDigit = false := fun c hc => isDigit_of_isBlank (hafter c hc)
  have hdot : '.' ∉ after := fun hmem => absurd (hafter _ hmem) (by decide)
  calc numbers (version ++ ".0")
      = readings (version.toList.dropWhile isBlank) ++ readings ['0'] := by
        rw [numbers_eq_readings, htrimmed, readings, pieces_append_sep, List.map_append]
        rfl
    _ = readings (trimmed isBlank version.toList) ++ [0] := by
        rw [hfront, readings_append hdigit hdot]
        rfl
    _ = numbers version ++ [0] := by rw [numbers_eq_readings]

/-! ### Lists of different lengths -/

theorem rightpad_succ_nil (n : Nat) : List.rightpad (n + 1) 0 [] = 0 :: List.rightpad n 0 [] :=
  rfl

theorem rightpad_succ_cons (n x : Nat) (xs : List Nat) :
    List.rightpad (n + 1) 0 (x :: xs) = x :: List.rightpad n 0 xs := by
  simp [List.rightpad]

/-- Numbers are compared as the lists of one length that they are widened to, whatever the
length is. -/
theorem compareNumbers_eq_compare {xs ys : List Nat} {n : Nat} (hxs : xs.length ≤ n)
    (hys : ys.length ≤ n) :
    compareNumbers xs ys = compare (xs.rightpad n 0) (ys.rightpad n 0) := by
  fun_induction compareNumbers xs ys generalizing n with
  | case1 => exact Std.ReflCmp.compare_self.symm
  | case2 x xs ih =>
    cases n with
    | zero => exact absurd hxs (Nat.not_succ_le_zero _)
    | succ m =>
      rw [rightpad_succ_nil, rightpad_succ_cons, List.compare_cons_cons,
        ih (Nat.le_of_succ_le_succ hxs) (Nat.zero_le m)]
  | case3 y ys ih =>
    cases n with
    | zero => exact absurd hys (Nat.not_succ_le_zero _)
    | succ m =>
      rw [rightpad_succ_nil, rightpad_succ_cons, List.compare_cons_cons,
        ih (Nat.zero_le m) (Nat.le_of_succ_le_succ hys)]
  | case4 x xs y ys ih =>
    cases n with
    | zero => exact absurd hxs (Nat.not_succ_le_zero _)
    | succ m =>
      rw [rightpad_succ_cons, rightpad_succ_cons, List.compare_cons_cons,
        ih (Nat.le_of_succ_le_succ hxs) (Nat.le_of_succ_le_succ hys)]

/-- Three lists have one length that they can all be widened to. -/
theorem exists_width (xs ys zs : List Nat) : ∃ n, xs.length ≤ n ∧ ys.length ≤ n ∧ zs.length ≤ n :=
  ⟨xs.length + ys.length + zs.length, by omega, by omega, by omega⟩

instance : Std.TransCmp compareNumbers where
  eq_swap {xs ys} := by
    obtain ⟨n, hxs, hys, -⟩ := exists_width xs ys []
    rw [compareNumbers_eq_compare hxs hys, compareNumbers_eq_compare hys hxs]
    exact Std.OrientedCmp.eq_swap
  isLE_trans {xs ys zs} hxy hyz := by
    obtain ⟨n, hxs, hys, hzs⟩ := exists_width xs ys zs
    rw [compareNumbers_eq_compare hxs hys] at hxy
    rw [compareNumbers_eq_compare hys hzs] at hyz
    rw [compareNumbers_eq_compare hxs hzs]
    exact Std.TransCmp.isLE_trans hxy hyz

theorem rightpad_concat_zero {xs : List Nat} {n : Nat} (h : xs.length < n) :
    (xs ++ [0]).rightpad n 0 = xs.rightpad n 0 := by
  have hwidth : n - xs.length = n - (xs.length + 1) + 1 := by omega
  rw [List.rightpad, List.rightpad, List.length_append, List.length_singleton, hwidth,
    List.replicate_succ, List.append_assoc, List.singleton_append]

/-- A zero more at the end makes no difference. -/
theorem compareNumbers_concat_zero (xs ys : List Nat) :
    compareNumbers (xs ++ [0]) ys = compareNumbers xs ys := by
  obtain ⟨n, hxs, hys, -⟩ := exists_width (xs ++ [0]) ys []
  have hlonger : xs.length < n := by rwa [List.length_append, List.length_singleton] at hxs
  rw [compareNumbers_eq_compare hxs hys, compareNumbers_eq_compare (Nat.le_of_lt hlonger) hys,
    rightpad_concat_zero hlonger]

/-! ### The order of versions -/

instance : Std.TransCmp order where
  eq_swap := by
    intro a b
    exact Std.OrientedCmp.eq_swap (a := numbers a) (b := numbers b)
  isLE_trans := by
    intro a b c hab hbc
    exact Std.TransCmp.isLE_trans (b := numbers b) hab hbc

theorem isNewer_eq_true_iff {a b : String} : isNewer a b = true ↔ order a b = .gt := by
  rw [isNewer, beq_iff_eq]

/-- Neither of two versions is newer exactly if they compare as equal. -/
theorem neither_isNewer_iff {a b : String} :
    isNewer a b = false ∧ isNewer b a = false ↔ order a b = .eq := by
  have hswap : order b a = (order a b).swap := Std.OrientedCmp.eq_swap
  rw [isNewer, isNewer, hswap]
  cases order a b <;> decide

/-- The version with `.0` appended to it so many times. -/
def prolonged (version : String) : Nat → String
  | 0 => version
  | n + 1 => prolonged version n ++ ".0"

/-- A version stands where it stands without zeros at its end. -/
theorem order_prolonged (a b : String) (n : Nat) : order (prolonged a n) b = order a b := by
  induction n with
  | zero => rfl
  | succ n ih =>
    rw [order, prolonged, numbers_append_zero, compareNumbers_concat_zero]
    exact ih

/-- A version stands where it stands without blanks around it. -/
theorem order_surround {before after : String} (hbefore : ∀ c ∈ before.toList, isBlank c = true)
    (hafter : ∀ c ∈ after.toList, isBlank c = true) (a b : String) :
    order (before ++ a ++ after) b = order a b := by
  have hsame : numbers (before ++ a ++ after) = numbers a := by
    rw [numbers, stripped_surround hbefore hafter, numbers]
  rw [order, hsame, order]

/-- What stands to every version as `b` does is stood to as `b` is. -/
theorem order_right {b b' : String} (h : ∀ a, order b' a = order b a) (a : String) :
    order a b' = order a b := by
  have hturn : ∀ x y, order x y = (order y x).swap := fun _ _ => Std.OrientedCmp.eq_swap
  rw [hturn, h, ← hturn]

/-- **The laws of versions.**  Versions are compared by a total preorder: the comparison
turned around is its reverse, and what is at most a version that is at most a third is at
most the third.  Being newer is a strict order, and being neither newer nor older is an
equivalence.  Zeros at the end and blanks around either version make no difference. -/
theorem order_laws (a b c : String) :
    order b a = (order a b).swap ∧
    (order a b ≠ .gt → order b c ≠ .gt → order a c ≠ .gt) ∧
    isNewer a a = false ∧
    (isNewer a b = true → isNewer b a = false) ∧
    (isNewer a b = true → isNewer b c = true → isNewer a c = true) ∧
    Equivalence (fun x y => isNewer x y = false ∧ isNewer y x = false) ∧
    (∀ n, order (prolonged a n) b = order a b ∧ order a (prolonged b n) = order a b) ∧
    ∀ before after : String, (∀ c ∈ before.toList, isBlank c = true) →
      (∀ c ∈ after.toList, isBlank c = true) →
      order (before ++ a ++ after) b = order a b ∧ order a (before ++ b ++ after) = order a b := by
  refine ⟨Std.OrientedCmp.eq_swap, fun hab hbc => ?_, ?_, fun hab => ?_, fun hab hbc => ?_,
    ?_, fun n => ⟨order_prolonged a b n, order_right (fun x => order_prolonged b x n) a⟩,
    fun before after hbefore hafter => ⟨order_surround hbefore hafter a b,
      order_right (fun x => order_surround hbefore hafter b x) a⟩⟩
  · exact Ordering.isLE_iff_ne_gt.1 (Std.TransCmp.isLE_trans
      (Ordering.isLE_iff_ne_gt.2 hab) (Ordering.isLE_iff_ne_gt.2 hbc))
  · exact (neither_isNewer_iff.2 Std.ReflCmp.compare_self).1
  · have hlt : order b a = .lt := Std.OrientedCmp.gt_iff_lt.1 (isNewer_eq_true_iff.1 hab)
    rw [isNewer, hlt]
    decide
  · exact isNewer_eq_true_iff.2
      (Std.TransCmp.gt_trans (isNewer_eq_true_iff.1 hab) (isNewer_eq_true_iff.1 hbc))
  · simp only [neither_isNewer_iff]
    exact ⟨fun _ => Std.ReflCmp.compare_self, Std.OrientedCmp.eq_comm.1, Std.TransCmp.eq_trans⟩

/-- `0.10.0` is newer than `0.9.9`, which is newer than `0.9`; `0.10` between blanks and with
two zeros more is as new as `0.10.0`. -/
theorem order_laws_dotted :
    isNewer "0.10.0" "0.9.9" = true ∧ isNewer "0.9.9" "0.9" = true ∧
      isNewer "0.10.0" "0.9" = true ∧ order "0.9" "0.9.9" ≠ .gt ∧ order "0.9.9" "0.10.0" ≠ .gt ∧
      order "0.9" "0.10.0" ≠ .gt ∧
      order ("\u3000" ++ "0.10" ++ "\n") "0.9.9" = order "0.10" "0.9.9" ∧
      order "0.9.9" (prolonged "0.10" 2) = .lt := by
  have hten : numbers "0.10.0" = [0, 10, 0] := by decide +kernel
  have hnine : numbers "0.9.9" = [0, 9, 9] := by decide +kernel
  have hshort : numbers "0.9" = [0, 9] := by decide +kernel
  have hbare : numbers "0.10" = [0, 10] := by decide +kernel
  have hnew : isNewer "0.10.0" "0.9.9" = true := by
    simp only [isNewer, order, hten, hnine, compareNumbers]
    decide
  have hold : isNewer "0.9.9" "0.9" = true := by
    simp only [isNewer, order, hnine, hshort, compareNumbers]
    decide
  have hlow : order "0.9" "0.9.9" ≠ .gt := by
    simp only [order, hshort, hnine, compareNumbers]
    decide
  have hhigh : order "0.9.9" "0.10.0" ≠ .gt := by
    simp only [order, hnine, hten, compareNumbers]
    decide
  have hless : order "0.9.9" "0.10" = .lt := by
    simp only [order, hnine, hbare, compareNumbers]
    decide
  obtain ⟨-, -, -, -, htrans, -⟩ := order_laws "0.10.0" "0.9.9" "0.9"
  obtain ⟨-, hle, -⟩ := order_laws "0.9" "0.9.9" "0.10.0"
  obtain ⟨-, -, -, -, -, -, -, hblank⟩ := order_laws "0.10" "0.9.9" "0.9"
  obtain ⟨-, -, -, -, -, -, hzeros, -⟩ := order_laws "0.9.9" "0.10" "0.9"
  exact ⟨hnew, hold, htrans hnew hold, hlow, hhigh, hle hlow hhigh,
    (hblank "\u3000" "\n" (List.all_eq_true.1 (by decide +kernel))
      (List.all_eq_true.1 (by decide +kernel))).1,
    (hzeros 2).2.trans hless⟩

end Version

end GemCourier
