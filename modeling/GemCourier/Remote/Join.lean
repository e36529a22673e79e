/-
GemCourier/Remote/Join.lean

How long a joined remote path is.

Joining a plain name to a path makes it longer, slashes around it not counted,
since a plain name keeps something when it is trimmed.  This is why walking
down a remote tree comes to an end although nothing stops a listing from naming
its own directory.

Main result: `extent_lt_extent_join`.
-/
import GemCourier.Remote.Entry

namespace GemCourier.Remote

/-- How long a remote path is without the slashes around it. -/
def extent (path : String) : Nat :=
  (trimSlashes path).length

theorem pieces_of_slashes {text : List Char} (h : ∀ c ∈ text, c = '/') :
    ∀ piece ∈ Text.pieces '/' text, piece = [] := by
  induction text with
  | nil => simp [Text.pieces]
  | cons c rest ih =>
    have hc : c = '/' := h c (by simp)
    simp only [Text.pieces, hc, if_true, List.mem_cons]
    rintro piece (rfl | hpiece)
    · rfl
    · exact ih (fun d hd => h d (by simp [hd])) piece hpiece

/-- A text of slashes alone has no name among its components. -/
theorem components_of_slashes {name : String} (h : ∀ c ∈ name.toList, c = '/') (n : String) :
    Component.name n ∉ (Path.mk name).components := by
  have hp := pieces_of_slashes h
  have hempty : ∀ piece ∈ (Path.mk name).pieces, piece = "" := by
    intro piece hpiece
    simp only [Path.pieces, Text.split, List.mem_map] at hpiece
    obtain ⟨chars, hchars, rfl⟩ := hpiece
    rw [hp chars hchars]
  rw [Path.components]
  split
  · simp
  · next first rest hpieces =>
    rw [hpieces] at hempty
    simp only [List.mem_append, Option.mem_toList, List.mem_filterMap, not_or, not_exists, not_and]
    refine ⟨?_, fun piece hpiece => ?_⟩
    · rw [hempty first (by simp)]
      cases (Path.mk name).isAbsolute <;> simp [Path.leading?, Component.ofPiece?]
    · rw [hempty piece (by simp [hpiece])]
      simp [Component.ofPiece?]

/-- A plain name holds something besides slashes. -/
theorem exists_ne_slash_of_isPlainName {name : String} (h : isPlainName name = true) :
    ∃ c ∈ name.toList, c ≠ '/' := by
  refine Classical.byContradiction fun hnone => ?_
  have hall : ∀ c ∈ name.toList, c = '/' := fun c hc =>
    Classical.byContradiction fun hne => hnone ⟨c, hc, hne⟩
  rw [isPlainName] at h
  split at h
  · next n hcomponents =>
    exact components_of_slashes hall n (by simp [hcomponents])
  · simp at h

/-- Something is left of a plain name when the slashes around it are dropped. -/
theorem trimSlashes_ne_empty_of_isPlainName {name : String} (h : isPlainName name = true) :
    trimSlashes name ≠ "" := by
  obtain ⟨c, hc, hne⟩ := exists_ne_slash_of_isPlainName h
  intro hempty
  have hnil : Text.trimmed (· == '/') name.toList = [] := by
    rw [trimSlashes, Text.trim] at hempty
    exact String.ofList_eq_empty_iff.1 hempty
  exact Text.trimmed_ne_nil hc (by simpa using hne) hnil

/-- Trimming again changes nothing. -/
theorem trimSlashes_trimSlashes (path : String) :
    trimSlashes (trimSlashes path) = trimSlashes path := by
  rw [trimSlashes, trimSlashes, Text.trim, Text.trim, String.toList_ofList]
  exact congrArg String.ofList
    (Text.trimmed_eq_self (fun _ => Text.head?_trimmed) fun _ => Text.getLast?_trimmed)

/-- A joined path neither starts nor ends with a slash. -/
theorem trimSlashes_join (parent name : String) :
    trimSlashes (join parent name) = join parent name := by
  rw [join]
  split
  · exact trimSlashes_trimSlashes name
  · next hparent =>
    split
    · exact trimSlashes_trimSlashes parent
    · next hname =>
      have hp : Text.trimmed (· == '/') parent.toList ≠ [] := fun h =>
        hparent (by rw [trimSlashes, Text.trim, h])
      have hn : Text.trimmed (· == '/') name.toList ≠ [] := fun h =>
        hname (by rw [trimSlashes, Text.trim, h])
      rw [trimSlashes, Text.trim]
      refine (congrArg String.ofList (Text.trimmed_eq_self ?_ ?_)).trans String.ofList_toList
      · intro c hc
        simp only [trimSlashes, Text.trim, String.toList_append, String.toList_ofList,
          List.append_assoc] at hc
        rw [List.head?_append, List.head?_eq_some_head hp, Option.some_or,
          ← List.head?_eq_some_head hp] at hc
        exact @Text.head?_trimmed (· == '/') _ _ hc
      · intro c hc
        simp only [trimSlashes, Text.trim, String.toList_append, String.toList_ofList] at hc
        rw [List.getLast?_append, List.getLast?_eq_some_getLast hn, Option.some_or,
          ← List.getLast?_eq_some_getLast hn] at hc
        exact @Text.getLast?_trimmed (· == '/') _ _ hc

/-- A plain name below a path makes a longer path. -/
theorem extent_lt_extent_join (parent : String) {name : String} (h : isPlainName name = true) :
    extent parent < extent (join parent name) := by
  have hname := trimSlashes_ne_empty_of_isPlainName h
  rw [extent, extent, trimSlashes_join, join]
  split
  · next hparent =>
    rw [hparent]
    have : (trimSlashes name).length ≠ 0 := by simpa using hname
    simpa using Nat.pos_of_ne_zero this
  · simp only [String.length_append]
    have : "/".length = 1 := rfl
    omega

end GemCourier.Remote
