/-
GemCourier/Proofs/Remote/Spelling.lean

What a plain name spells.

A listed name is tested as it is read, component by component, and used as it is
written.  So a plain name need not be the name of an entry: it is one with idle
pieces behind it, slashes and dots that lead nowhere (`Spells`).  What is
spelled is called the core here, and it is all that the local side of a download
sees of a name.  Names of one core share their place, names of different cores
never do, and a name is its own core exactly if it holds no slash.

Main results: `isPlainName_iff`, `Spells.components_child`, `Spells.no_slash_iff`,
`Spells.reaches_child_iff`.
-/
import GemCourier.Proofs.Disk.Leading
import GemCourier.Proofs.Path.Relative
import GemCourier.Remote.Entry

namespace GemCourier

/-- A path that reads as one name is written as this name with idle pieces behind it. -/
theorem Path.exists_pieces_of_name {p : Path} {n : String} (h : p.components = [.name n]) :
    ∃ idle, p.pieces = n :: idle ∧ ∀ piece ∈ idle, isIdle piece = true := by
  obtain ⟨first, rest, hpieces⟩ := List.exists_cons_of_ne_nil p.pieces_ne_nil
  have hfront := h
  rw [components_eq hpieces] at hfront
  -- a root or a `.` at the front would be a component of its own
  have habsolute : p.isAbsolute = false := by
    refine Bool.eq_false_iff.2 fun habsolute => ?_
    simp [leading?, habsolute] at hfront
  have hhere : first ≠ "." := by
    rintro rfl
    simp [leading?, habsolute] at hfront
  rw [components_of_relative hpieces habsolute hhere] at h
  cases hfirst : Component.ofPiece? first with
  | none =>
    -- an empty piece in front is that of a root, or the whole of an empty text
    have hempty : first = "" := by simpa [isIdle, hhere] using isIdle_iff.2 hfirst
    rw [List.filterMap_cons_none hfirst] at h
    have hrest : rest ≠ [] := by
      rintro rfl
      cases h
    rw [(isAbsolute_iff hpieces).2 ⟨hempty, hrest⟩] at habsolute
    cases habsolute
  | some c =>
    rw [List.filterMap_cons_some hfirst] at h
    obtain ⟨rfl, hidle⟩ := List.cons.inj h
    obtain rfl : n = first := (Component.ofPiece?_eq_some hfirst).2.2
    exact ⟨rest, hpieces, fun piece hpiece =>
      isIdle_iff.2 (List.filterMap_eq_nil_iff.1 hidle piece hpiece)⟩

namespace Remote

/-- A name is written as the name of an entry, its core, with idle pieces behind it. -/
structure Spells (name core : String) : Prop where
  isEntryName : IsEntryName core
  written : ∃ idle : List String, (∀ piece ∈ idle, Path.isIdle piece = true) ∧
    name = "/".intercalate (core :: idle)

/-- What reads as one name is a spelling of it. -/
theorem spells_of_components {name core : String} (h : (Path.mk name).components = [.name core]) :
    Spells name core := by
  obtain ⟨idle, hpieces, hidle⟩ := Path.exists_pieces_of_name h
  refine ⟨(Path.canonical_components ⟨name⟩).names core (by simp [h]), idle, hidle, ?_⟩
  rw [← hpieces]
  exact (congrArg Path.text (Path.ofPieces_pieces ⟨name⟩)).symm

namespace Spells

variable {name other core core' : String} {place : Path}

theorem self {n : String} (h : IsEntryName n) : Spells n n :=
  ⟨h, [], by simp, by simp⟩

theorem exists_pieces (h : Spells name core) :
    ∃ idle, (Path.mk name).pieces = core :: idle ∧ ∀ piece ∈ idle, Path.isIdle piece = true := by
  obtain ⟨idle, hidle, rfl⟩ := h.written
  refine ⟨idle, Path.pieces_ofPieces (by simp) fun piece hpiece => ?_, hidle⟩
  rcases List.mem_cons.1 hpiece with rfl | hpiece
  · exact h.isEntryName.no_slash
  · have hcases : piece = "" ∨ piece = "." := by simpa [Path.isIdle] using hidle piece hpiece
    rcases hcases with rfl | rfl <;> decide

theorem isAbsolute (h : Spells name core) : (Path.mk name).isAbsolute = false := by
  obtain ⟨idle, hpieces, -⟩ := h.exists_pieces
  refine Bool.eq_false_iff.2 fun habsolute => ?_
  exact h.isEntryName.ne_empty ((Path.isAbsolute_iff hpieces).1 habsolute).1

/-- A spelling reads as its core. -/
theorem components (h : Spells name core) : (Path.mk name).components = [.name core] := by
  obtain ⟨idle, hpieces, hidle⟩ := h.exists_pieces
  have hnone : idle.filterMap Component.ofPiece? = [] :=
    List.filterMap_eq_nil_iff.2 fun piece hpiece => Path.isIdle_iff.1 (hidle piece hpiece)
  rw [Path.components_of_relative hpieces h.isAbsolute h.isEntryName.ne_here,
    List.filterMap_cons_some (Component.ofPiece?_name h.isEntryName), hnone]

theorem unique (h : Spells name core) (h' : Spells name core') : core = core' := by
  have hcomponents := h.components.symm.trans h'.components
  simpa using hcomponents

/-- Whatever the spelling, what it adds to a path is the core. -/
theorem components_child (h : Spells name core) :
    (place.child name).components = place.components ++ [.name core] := by
  obtain ⟨idle, hpieces, -⟩ := h.exists_pieces
  have hhere : (Path.mk name).pieces.head? ≠ some "." := by
    rw [hpieces, List.head?_cons]
    exact fun e => h.isEntryName.ne_here (Option.some.inj e)
  rw [Path.child, Path.components_join h.isAbsolute hhere, h.components]

theorem fileName?_child (h : Spells name core) : (place.child name).fileName? = some core := by
  simp [Path.fileName?, h.components_child]

theorem sameAs_child_iff (h : Spells name core) (h' : Spells other core') :
    (place.child name).sameAs (place.child other) = true ↔ core = core' := by
  simp [Path.sameAs, h.components_child, h'.components_child]

/-- Where no link stands below the directory, two names lead to one location exactly if they
have one core. -/
theorem reaches_child_iff {d : Disk} {loc : Location} (h : Spells name core)
    (h' : Spells other core') (hfree : d.LinkFreeBelow place)
    (hloc : d.Reaches (place.child name) loc) :
    d.Reaches (place.child other) loc ↔ core = core' := by
  constructor
  · intro hother
    have hnames : [core] = [core'] :=
      Disk.names_unique hfree h.components_child h'.components_child hloc hother
    exact List.singleton_inj.1 hnames
  · rintro rfl
    rwa [Disk.Reaches, h'.components_child, ← h.components_child]

/-- A name is its own core exactly if it holds no slash. -/
theorem no_slash_iff (h : Spells name core) : '/' ∉ name.toList ↔ name = core := by
  constructor
  · intro hslash
    obtain ⟨idle, hpieces, -⟩ := h.exists_pieces
    have hone : (Path.mk name).pieces = [name] := by
      simp [Path.pieces, Text.split, Text.pieces_of_not_mem hslash]
    exact (List.cons.inj (hone.symm.trans hpieces)).1
  · rintro rfl
    exact h.isEntryName.no_slash

theorem ne_empty (h : Spells name core) : name ≠ "" := by
  rintro rfl
  have hnone : (Path.mk "").components = [] := by decide
  cases hnone.symm.trans h.components

end Spells

/-- A listed name is plain exactly if it is a spelling of the name of an entry. -/
theorem isPlainName_iff {name : String} : isPlainName name = true ↔ ∃ core, Spells name core := by
  constructor
  · intro h
    rw [isPlainName] at h
    split at h
    · next core hcore => exact ⟨core, spells_of_components hcore⟩
    · cases h
  · rintro ⟨core, h⟩
    rw [isPlainName, h.components]

end Remote

end GemCourier
