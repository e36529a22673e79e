/-
GemCourier/Proofs/Disk/Opening.lean

Paths that lead to directories, and what is found in these.

A path opens if a way along its steps leads to a directory.  Whatever is found
by the path of a child was looked up under its name in the directory that the
path of the parent opens, so being found can be told level by level.

Main results: `find_of_opens`, `exists_opens_of_find_child`, `Opens.parent`.
-/
import GemCourier.Proofs.Disk.Ways

namespace GemCourier.Path

/-- The steps of a path, without a slash at its end. -/
def walked (p : Path) : List Step :=
  p.pieces.filterMap Step.ofPiece?

variable {p : Path} {n : String}

theorem isAbsolute_of_isEntryName (hn : IsEntryName n) : (Path.mk n).isAbsolute = false := by
  have hcomponents := components_of_isEntryName hn
  refine Bool.eq_false_iff.2 fun habsolute => ?_
  rw [components_eq (pieces_of_isEntryName hn)] at hcomponents
  simp [leading?, habsolute] at hcomponents

theorem exists_text_child (p : Path) (hn : IsEntryName n) :
    ∃ more, (p.child n).text = p.text ++ more := by
  rw [child, join, if_neg (by simp [isAbsolute_of_isEntryName hn])]
  split
  · exact ⟨n, rfl⟩
  · exact ⟨"/" ++ n, String.append_assoc ..⟩

theorem text_child_ne_empty (hp : p.text ≠ "") (hn : IsEntryName n) : (p.child n).text ≠ "" := by
  obtain ⟨more, hmore⟩ := exists_text_child p hn
  rw [hmore]
  simp [hp]

theorem child_of_isEntryName (hp : p.text ≠ "") (hn : IsEntryName n) :
    (p.child n).walked = p.walked ++ [.down n] ∧ (p.child n).steps = p.walked ++ [.down n] ∧
      (p.child n).isAbsolute = p.isAbsolute := by
  have hrelative := isAbsolute_of_isEntryName hn
  obtain ⟨outer, _, hpieces, hjoin, habsolute⟩ := pieces_join hp hrelative
  have hdown : Step.ofPiece? n = some (.down n) := by
    simp [Step.ofPiece?, hn.ne_empty, hn.ne_here, hn.ne_up]
  have hwalked : (p.child n).walked = p.walked ++ [.down n] := by
    rw [walked, child, hjoin, pieces_of_isEntryName hn, List.filterMap_append, walked]
    rw [List.filterMap_cons_some hdown, List.filterMap_nil]
    rcases hpieces with hpieces | hpieces
    · rw [hpieces]
    · rw [hpieces, List.filterMap_append, List.append_assoc]
      rfl
  refine ⟨hwalked, ?_, habsolute⟩
  -- the last character is one of the name, and no slash
  have hslash : (p.child n).endsInSlash = false := by
    obtain ⟨chars, c, hc⟩ : ∃ chars c, n.toList = chars ++ [c] := by
      rcases List.eq_nil_or_concat n.toList with hnil | ⟨chars, c, hc⟩
      · exact absurd (String.toList_eq_nil_iff.1 hnil) hn.ne_empty
      · exact ⟨chars, c, by rw [hc, List.concat_eq_append]⟩
    have hne : c ≠ '/' := fun e => hn.no_slash (by simp [hc, e])
    rw [child, join, if_neg (by simp [hrelative])]
    have hlast : ∀ front : String, (Path.mk (front ++ n)).endsInSlash = false := by
      intro front
      rw [endsInSlash, String.toList_append, hc, ← List.append_assoc, List.getLast?_concat]
      simpa using hne
    split
    · exact hlast _
    · exact hlast _
  rw [steps, hslash, ← walked, hwalked]
  simp

end GemCourier.Path

namespace GemCourier.Disk

variable {d : Disk} {p : Path} {k : Nat} {loc dest : Location} {n : String}

/-- `d.Opens p k loc`: the path leads through directories to the directory `loc`, with `k`
links left to follow. -/
structure Opens (d : Disk) (p : Path) (k : Nat) (loc : Location) : Prop where
  readable : d.Readable p
  way : d.Way mostLinks (d.origin p) p.walked k loc

theorem Opens.folder (hd : d.WellFormed) (h : d.Opens p k loc) : d.node? loc = some .folder :=
  h.way.folder hd h.readable.origin

/-- A path that opens is found where it opens. -/
theorem find_of_opens (h : d.Opens p k loc) : d.find .through p = .ok (.found loc) := by
  refine find_ok_iff.2 ⟨h.readable, ?_⟩
  have hslash : d.Way k loc (if p.endsInSlash then [.slash] else []) k loc := by
    split
    · exact .slash .done
    · exact .done
  exact (way_append.2 ⟨k, loc, h.way, hslash⟩).resolve

/-- A path that opens goes on opening when the disk grows. -/
theorem Opens.grows {d' : Disk} (hgrows : d.Grows d') (h : d.Opens p k loc) :
    d'.Opens p k loc where
  readable := (hgrows.readable h.readable).1
  way := by
    rw [(hgrows.readable h.readable).2]
    exact h.way.grows hgrows

/-- What is found under a name in a directory was looked up in that directory. -/
theorem exists_opens_of_find_child (hp : p.text ≠ "") (hn : IsEntryName n)
    (h : d.find .through (p.child n) = .ok (.found dest)) :
    ∃ k loc, d.Opens p k loc ∧ d.resolve .through k loc [.down n] = .ok (.found dest) := by
  obtain ⟨hreadable, hresolve⟩ := find_ok_iff.1 h
  obtain ⟨-, hsteps, habsolute⟩ := Path.child_of_isEntryName hp hn
  have horigin : d.origin (p.child n) = d.origin p := by rw [origin, origin, habsolute]
  rw [hsteps, horigin] at hresolve
  obtain ⟨k, loc, hway, hend⟩ := exists_way_of_resolve hresolve
  obtain ⟨more, hmore⟩ := Path.exists_text_child p hn
  refine ⟨k, loc, ⟨⟨?_, hp, ?_, ?_⟩, hway⟩, hend⟩
  · have hnul := hreadable.no_nul
    rw [hmore, String.toList_append] at hnul
    simp only [List.contains_append, Bool.or_eq_false_iff] at hnul
    exact hnul.1
  · have hshort := hreadable.short
    rw [hmore, String.utf8ByteSize_append] at hshort
    omega
  · rw [← horigin]
    exact hreadable.origin

/-- The path of a directory opens below the directory that the path of its parent opens. -/
theorem Opens.parent (hp : p.text ≠ "") (hn : IsEntryName n) (h : d.Opens (p.child n) k loc) :
    ∃ k₁ loc₁, d.Opens p k₁ loc₁ ∧ d.Way k₁ loc₁ [.down n] k loc := by
  obtain ⟨_, _, hopens, -⟩ := exists_opens_of_find_child hp hn (find_of_opens h)
  obtain ⟨hwalked, -, habsolute⟩ := Path.child_of_isEntryName hp hn
  have horigin : d.origin (p.child n) = d.origin p := by rw [origin, origin, habsolute]
  have hway := h.way
  rw [hwalked, horigin] at hway
  obtain ⟨k₁, loc₁, hfront, hlast⟩ := way_append.1 hway
  exact ⟨k₁, loc₁, ⟨hopens.readable, hfront⟩, hlast⟩

/-- What is found by going down some names was found in a directory, which opens. -/
theorem exists_opens_of_find_descend {names : List String} (hp : p.text ≠ "") (hne : names ≠ [])
    (hnames : ∀ n ∈ names, IsEntryName n)
    (h : d.find .through (p.descend names) = .ok (.found dest)) : ∃ k loc, d.Opens p k loc := by
  induction names generalizing p with
  | nil => exact absurd rfl hne
  | cons n rest ih =>
    have hn := hnames n (by simp)
    cases rest with
    | nil =>
      obtain ⟨k, loc, hopens, -⟩ := exists_opens_of_find_child hp hn h
      exact ⟨k, loc, hopens⟩
    | cons m others =>
      obtain ⟨k, loc, hopens⟩ := ih (Path.text_child_ne_empty hp hn) (by simp)
        (fun m hm => hnames m (by simp [hm])) h
      obtain ⟨k₁, loc₁, hparent, -⟩ := hopens.parent hp hn
      exact ⟨k₁, loc₁, hparent⟩

end GemCourier.Disk
