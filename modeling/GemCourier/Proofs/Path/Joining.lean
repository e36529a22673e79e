/-
GemCourier/Proofs/Path/Joining.lean

The components of paths that are put together.

Joining works on texts and the program reasons on components, so this is where
the two are tied: a relative path that does not open with a `.` adds its own
components behind those of the path it is taken from, whatever slashes and dots
either was written with.  From there on paths are lists of components.

`Canonical` says which lists of components a path can have.  Writing such a list
down and reading it again gives it back, so `parent?`, which writes a path from
the components but the last, has exactly these.

Main results: `components_join`, `components_ofComponents`, `components_parent?`.
-/
import Mathlib.Data.List.Induction
import Mathlib.Data.List.Infix
import GemCourier.Path.Basic
import GemCourier.Proofs.Text.Pieces

namespace GemCourier

/-! ### Names of entries -/

/-- A text that can be the name of an entry in a directory. -/
structure IsEntryName (n : String) : Prop where
  ne_empty : n ≠ ""
  ne_here : n ≠ "."
  ne_up : n ≠ ".."
  no_slash : '/' ∉ n.toList

instance (n : String) : Decidable (IsEntryName n) :=
  decidable_of_iff (n ≠ "" ∧ n ≠ "." ∧ n ≠ ".." ∧ '/' ∉ n.toList)
    ⟨fun ⟨hempty, hhere, hup, hslash⟩ => ⟨hempty, hhere, hup, hslash⟩,
      fun h => ⟨h.ne_empty, h.ne_here, h.ne_up, h.no_slash⟩⟩

theorem Component.ofPiece?_eq_some {piece : String} {c : Component} (h : ofPiece? piece = some c) :
    c ≠ .root ∧ c ≠ .here ∧ c.text = piece := by
  simp only [ofPiece?] at h
  split at h
  · simp at h
  · split at h
    · next hup => cases h; exact ⟨by simp, by simp, hup.symm⟩
    · cases h; exact ⟨by simp, by simp, rfl⟩

theorem Component.ofPiece?_name {n : String} (h : IsEntryName n) : ofPiece? n = some (.name n) := by
  simp [ofPiece?, h.ne_empty, h.ne_here, h.ne_up]

theorem Component.all_isName_iff {cs : List Component} :
    cs.all isName = true ↔ ∃ names : List String, cs = names.map .name := by
  constructor
  · intro h
    refine ⟨cs.map text, ?_⟩
    rw [List.map_map]
    refine (List.map_id cs).symm.trans (List.map_congr_left fun c hc => ?_)
    have hname := List.all_eq_true.1 h c hc
    cases c with
    | name n => rfl
    | root => cases hname
    | here => cases hname
    | up => cases hname
  · rintro ⟨names, rfl⟩
    simp [isName]

namespace Path

theorem no_slash_of_mem_pieces {p : Path} {piece : String} (h : piece ∈ p.pieces) :
    '/' ∉ piece.toList := by
  obtain ⟨chars, hchars, rfl⟩ := List.mem_map.1 h
  rw [String.toList_ofList]
  exact Text.not_mem_of_mem_pieces hchars

theorem pieces_ne_nil (p : Path) : p.pieces ≠ [] := by
  simp [pieces, Text.split, Text.pieces_ne_nil]

/-- What the name of an entry looks like as a path. -/
theorem pieces_of_isEntryName {n : String} (h : IsEntryName n) : (Path.mk n).pieces = [n] := by
  simp [pieces, Text.split, Text.pieces_of_not_mem h.no_slash]

theorem isEntryName_of_ofPiece? {p : Path} {piece n : String} (hpiece : piece ∈ p.pieces)
    (h : Component.ofPiece? piece = some (.name n)) : IsEntryName n := by
  simp only [Component.ofPiece?] at h
  split at h
  · simp at h
  · next hidle =>
    split at h
    · simp at h
    · next hup =>
      cases h
      exact ⟨fun e => hidle (Or.inl e), fun e => hidle (Or.inr e), hup,
        no_slash_of_mem_pieces hpiece⟩

theorem components_eq {p : Path} {first : String} {rest : List String}
    (h : p.pieces = first :: rest) :
    p.components = (leading? p.isAbsolute first).toList ++ rest.filterMap Component.ofPiece? := by
  simp [components, h]

/-- What the name of an entry looks like as a list of components. -/
theorem components_of_isEntryName {n : String} (h : IsEntryName n) :
    (Path.mk n).components = [.name n] := by
  rw [components_eq (pieces_of_isEntryName h)]
  have habsolute : (Path.mk n).isAbsolute = false := by
    cases hn : n.toList with
    | nil => simp [isAbsolute, hn]
    | cons c rest =>
      have : c ≠ '/' := fun e => h.no_slash (by simp [hn, e])
      simp [isAbsolute, hn, this]
  simp [leading?, habsolute, h.ne_here, Component.ofPiece?_name h]

/-! ### Joining -/

/-- The pieces of a joined path: those of the path it is taken from, without an empty one at
the end, and then those of the path that is added. -/
theorem pieces_join {p q : Path} (hp : p.text ≠ "") (hq : q.isAbsolute = false) :
    ∃ outer, outer ≠ [] ∧ (p.pieces = outer ∨ p.pieces = outer ++ [""]) ∧
      (p.join q).pieces = outer ++ q.pieces ∧ (p.join q).isAbsolute = p.isAbsolute := by
  obtain ⟨text⟩ := p
  have hne : text.toList ≠ [] := fun e => hp (String.toList_eq_nil_iff.1 e)
  by_cases hslash : (Path.mk text).endsInSlash = true
  · -- the slash that ends the path is the one between the two
    obtain ⟨body, hbody⟩ : ∃ body, text.toList = body ++ ['/'] := by
      rw [endsInSlash, beq_iff_eq] at hslash
      exact List.getLast?_eq_some_iff.1 hslash
    have hjoin : (Path.mk text).join q = ⟨text ++ q.text⟩ := by simp [join, hq, hslash]
    refine ⟨(Text.pieces '/' body).map String.ofList, ?_, Or.inr ?_, ?_, ?_⟩
    · simp [Text.pieces_ne_nil]
    · rw [pieces, Text.split, hbody, Text.pieces_append_sep]
      simp [Text.pieces]
    · simp [hjoin, pieces, Text.split, hbody, Text.pieces_append_sep]
    · rw [hjoin]
      cases body <;> simp [isAbsolute, hbody]
  · have hjoin : (Path.mk text).join q = ⟨text ++ "/" ++ q.text⟩ := by
      have htext : text ≠ "" := hp
      simp [join, hq, hslash, htext]
    refine ⟨(Text.pieces '/' text.toList).map String.ofList, ?_, Or.inl rfl, ?_, ?_⟩
    · simp [Text.pieces_ne_nil]
    · simp [hjoin, pieces, Text.split, Text.pieces_append_sep]
    · obtain ⟨c, rest, hc⟩ := List.exists_cons_of_ne_nil hne
      simp [hjoin, isAbsolute, hc]

/-- A relative path adds to a path that is not empty the components of its pieces. -/
theorem components_join_pieces {p q : Path} (hp : p.text ≠ "") (hq : q.isAbsolute = false) :
    (p.join q).components = p.components ++ q.pieces.filterMap Component.ofPiece? := by
  obtain ⟨outer, houter, hpieces, hjoin, habsolute⟩ := pieces_join hp hq
  obtain ⟨head, tail, rfl⟩ := List.exists_cons_of_ne_nil houter
  have hpc : p.components =
      (leading? p.isAbsolute head).toList ++ tail.filterMap Component.ofPiece? := by
    rcases hpieces with h | h
    · exact components_eq h
    · rw [components_eq (show p.pieces = head :: (tail ++ [""]) by simpa using h)]
      simp [Component.ofPiece?]
  rw [components_eq (show (p.join q).pieces = head :: (tail ++ q.pieces) by simpa using hjoin),
    habsolute, List.filterMap_append, hpc, List.append_assoc]

/-- A relative path that does not open with a `.` adds its components to those of the path
it is taken from. -/
theorem components_join {p q : Path} (hq : q.isAbsolute = false)
    (hhere : q.pieces.head? ≠ some ".") :
    (p.join q).components = p.components ++ q.components := by
  obtain ⟨first, rest, hfirst⟩ := List.exists_cons_of_ne_nil q.pieces_ne_nil
  have hne : first ≠ "." := fun e => hhere (by simp [hfirst, e])
  have hadded : q.components = q.pieces.filterMap Component.ofPiece? := by
    rw [components_eq hfirst, hfirst]
    cases h : Component.ofPiece? first <;> simp [leading?, hq, hne, h]
  by_cases hp : p.text = ""
  · obtain ⟨text⟩ := p
    cases hp
    have hjoin : (Path.mk "").join q = q := by simp [join, hq]
    rw [hjoin]
    rfl
  · rw [components_join_pieces hp hq, hadded]

theorem components_child {p : Path} {n : String} (h : IsEntryName n) :
    (p.child n).components = p.components ++ [.name n] := by
  rw [child, components_join, components_of_isEntryName h]
  · have := components_of_isEntryName h
    refine Bool.eq_false_iff.2 fun habsolute => ?_
    rw [components_eq (pieces_of_isEntryName h)] at this
    simp [leading?, habsolute] at this
  · simp [pieces_of_isEntryName h, h.ne_here]

/-! ### Lists of components -/

/-- What the components of a path can be: a root or a `.` stands at the front only, and the
names are names of entries. -/
structure Canonical (cs : List Component) : Prop where
  front : ∀ c ∈ cs.tail, c ≠ .root ∧ c ≠ .here
  names : ∀ n, .name n ∈ cs → IsEntryName n

theorem canonical_components (p : Path) : Canonical p.components := by
  obtain ⟨first, rest, h⟩ := List.exists_cons_of_ne_nil p.pieces_ne_nil
  rw [components_eq h]
  have hrest : ∀ c ∈ rest.filterMap Component.ofPiece?, c ≠ .root ∧ c ≠ .here := by
    intro c hc
    obtain ⟨piece, _, hpiece⟩ := List.mem_filterMap.1 hc
    exact ⟨(Component.ofPiece?_eq_some hpiece).1, (Component.ofPiece?_eq_some hpiece).2.1⟩
  refine ⟨fun c hc => hrest c ?_, fun n hn => ?_⟩
  · cases hl : leading? p.isAbsolute first with
    | none =>
      rw [hl] at hc
      exact List.mem_of_mem_tail hc
    | some d => simpa [hl] using hc
  · rcases List.mem_append.1 hn with hn | hn
    · rw [Option.mem_toList, leading?] at hn
      split at hn
      · simp at hn
      · split at hn
        · simp at hn
        · exact isEntryName_of_ofPiece? (p := p) (by simp [h]) hn
    · obtain ⟨piece, hmem, hpiece⟩ := List.mem_filterMap.1 hn
      exact isEntryName_of_ofPiece? (p := p) (by simp [h, hmem]) hpiece

namespace Canonical

theorem initial {cs ds : List Component} (h : Canonical ds) (hp : cs <+: ds) : Canonical cs where
  front := fun c hc => by
    have htail : cs.tail <+: ds.tail := by simpa using hp.drop 1
    exact h.front c (List.IsPrefix.mem hc htail)
  names := fun n hn => h.names n (List.IsPrefix.mem hn hp)

/-- What stands behind the front of a path stays a component of its own. -/
theorem components_text {c : Component} (hc : c ≠ .root ∧ c ≠ .here)
    (hname : ∀ n, c = .name n → IsEntryName n) :
    (Path.mk c.text).components = [c] ∧ (Path.mk c.text).isAbsolute = false ∧
      (Path.mk c.text).pieces.head? ≠ some "." := by
  cases c with
  | root => exact absurd rfl hc.1
  | here => exact absurd rfl hc.2
  | up => exact ⟨by decide, by decide, by decide⟩
  | name n =>
    have hn := hname n rfl
    refine ⟨components_of_isEntryName hn, ?_, ?_⟩
    · have := components_of_isEntryName hn
      refine Bool.eq_false_iff.2 fun habsolute => ?_
      rw [components_eq (pieces_of_isEntryName hn)] at this
      simp [leading?, show (Path.mk n).isAbsolute = true from habsolute] at this
    · simp [Component.text, pieces_of_isEntryName hn, hn.ne_here]

end Canonical

/-- A path written from components it can have reads as these. -/
theorem components_ofComponents {cs : List Component} (h : Canonical cs) :
    (ofComponents cs).components = cs := by
  induction cs using List.reverseRecOn with
  | nil => decide
  | append_singleton cs c ih =>
    have hinner := ih (h.initial (List.prefix_append cs [c]))
    have hlast : ofComponents (cs ++ [c]) = (ofComponents cs).child c.text := by
      simp [ofComponents]
    rw [hlast]
    by_cases hc : c = .root ∨ c = .here
    · -- only at the front, so nothing stands before it
      have hnil : cs = [] := by
        cases cs with
        | nil => rfl
        | cons d rest =>
          have := h.front c (by simp)
          rcases hc with rfl | rfl
          · exact absurd rfl this.1
          · exact absurd rfl this.2
      subst hnil
      rcases hc with rfl | rfl <;> decide
    · obtain ⟨hone, habsolute, hhere⟩ := Canonical.components_text
        (c := c) ⟨fun e => hc (Or.inl e), fun e => hc (Or.inr e)⟩
        fun n e => h.names n (by simp [e])
      rw [child, components_join habsolute hhere, hinner, hone]

/-- The directory a path lies in has the components of the path but the last. -/
theorem components_parent? {p q : Path} (h : p.parent? = some q) :
    q.components = p.components.dropLast := by
  rw [parent?] at h
  split at h
  · simp at h
  · simp at h
  · next last outer _ hreverse =>
    have hp : p.components = outer.reverse ++ [last] := by
      rw [← List.reverse_reverse p.components, hreverse, List.reverse_cons]
    cases h
    rw [hp, List.dropLast_concat]
    exact components_ofComponents
      ((canonical_components p).initial (by rw [hp]; exact List.prefix_append _ _))

/-- A path that ends in a name lies in a directory. -/
theorem exists_parent?_of_name {p : Path} {outer : List Component} {n : String}
    (h : p.components = outer ++ [.name n]) :
    ∃ q, p.parent? = some q ∧ q.components = outer := by
  have hparent : p.parent? = some (ofComponents outer) := by
    simp [parent?, h]
  exact ⟨_, hparent, by rw [components_parent? hparent, h, List.dropLast_concat]⟩

/-! ### Descending -/

/-- The path of what is reached by some names, one after the other. -/
def descend (p : Path) (names : List String) : Path :=
  names.foldl child p

theorem descend_cons (p : Path) (n : String) (names : List String) :
    p.descend (n :: names) = (p.child n).descend names := by
  rw [descend, descend, List.foldl_cons]

theorem components_descend {p : Path} {names : List String} (h : ∀ n ∈ names, IsEntryName n) :
    (p.descend names).components = p.components ++ names.map .name := by
  induction names generalizing p with
  | nil => simp [descend]
  | cons n rest ih =>
    rw [descend_cons, ih fun m hm => h m (by simp [hm]), components_child (h n (by simp))]
    simp

/-- A path that was reached by names tells them. -/
theorem descend_injective {p : Path} {names others : List String} (h : ∀ n ∈ names, IsEntryName n)
    (h' : ∀ n ∈ others, IsEntryName n) (heq : p.descend names = p.descend others) :
    names = others := by
  have hcomponents := congrArg components heq
  rwa [components_descend h, components_descend h', List.append_cancel_left_eq,
    List.map_inj_right (by simp)] at hcomponents

end Path

end GemCourier
