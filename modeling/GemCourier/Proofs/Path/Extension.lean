/-
GemCourier/Proofs/Path/Extension.lean

What a path is with another extension, and which characters it has.

The extension of a path is the end of its last piece, so what is cut off is cut
off there and what is added is added there: the path names another entry of the
same directory.  The one exception is a name such as `..rb`, of which `..`
remains, and that leads out of the directory.

Every character of a path that is neither a slash nor a dot is one of a name, so
paths with the same components have the same such characters.

Main results: `withExtension_spec`, `mem_text_iff`.
-/
import GemCourier.Proofs.Path.Ending

namespace GemCourier

namespace Text

/-- A character other than the separator is one of a piece. -/
theorem mem_iff_exists_piece {sep c : Char} (hc : c ≠ sep) {text : List Char} :
    c ∈ text ↔ ∃ piece ∈ pieces sep text, c ∈ piece := by
  induction text with
  | nil => simp [pieces]
  | cons b rest ih =>
    obtain ⟨first, others, hpieces⟩ := List.exists_cons_of_ne_nil (pieces_ne_nil sep rest)
    rw [hpieces] at ih
    by_cases hb : b = sep
    · have hcb : c ≠ b := fun e => hc (e.trans hb)
      simp [pieces, hb, hpieces, hc, ih]
    · simp [pieces, hb, hpieces, ih, or_assoc]

end Text

namespace Path

variable {p q : Path} {c : Char} {n stem old extension : String} {cs : List Component}

/-! ### Characters -/

theorem mem_text_iff_exists_piece (hslash : c ≠ '/') :
    c ∈ p.text.toList ↔ ∃ piece ∈ p.pieces, c ∈ piece.toList := by
  rw [Text.mem_iff_exists_piece hslash]
  simp [pieces, Text.split]

/-- A character that is neither a slash nor a dot is one of a name. -/
theorem mem_text_iff (hslash : c ≠ '/') (hdot : c ≠ '.') :
    c ∈ p.text.toList ↔ ∃ n, .name n ∈ p.components ∧ c ∈ n.toList := by
  have hpiece : ∀ piece : String, c ∈ piece.toList → Component.ofPiece? piece = some (.name piece) := by
    intro piece hmem
    have hne : piece ≠ "" ∧ piece ≠ "." ∧ piece ≠ ".." := by
      refine ⟨?_, ?_, ?_⟩ <;> rintro rfl <;> simp [hdot] at hmem
    simp [Component.ofPiece?, hne]
  rw [mem_text_iff_exists_piece hslash]
  obtain ⟨first, rest, hpieces⟩ := List.exists_cons_of_ne_nil (pieces_ne_nil p)
  constructor
  · rintro ⟨piece, hmem, hc⟩
    refine ⟨piece, ?_, hc⟩
    rw [components_eq hpieces]
    rcases List.mem_cons.1 (hpieces ▸ hmem) with rfl | hrest
    · have hrelative : p.isAbsolute = false := by
        refine Bool.eq_false_iff.2 fun habsolute => ?_
        rw [((isAbsolute_iff hpieces).1 habsolute).1] at hc
        simp at hc
      have hhere : piece ≠ "." := by
        rintro rfl
        simp [hdot] at hc
      simp [leading?, hrelative, hhere, hpiece piece hc]
    · exact List.mem_append_right _ (List.mem_filterMap.2 ⟨piece, hrest, hpiece piece hc⟩)
  · rintro ⟨n, hmem, hc⟩
    have htext : ∀ piece, Component.ofPiece? piece = some (.name n) → piece = n :=
      fun piece h => (Component.ofPiece?_eq_some h).2.2.symm
    refine ⟨n, ?_, hc⟩
    rw [hpieces]
    rw [components_eq hpieces] at hmem
    rcases List.mem_append.1 hmem with hfirst | hrest
    · refine List.mem_cons.2 (Or.inl (htext first ?_).symm)
      rw [leading?] at hfirst
      split at hfirst
      · simp at hfirst
      · split at hfirst
        · simp at hfirst
        · exact Option.mem_toList.1 hfirst
    · obtain ⟨piece, hpiece, heq⟩ := List.mem_filterMap.1 hrest
      rw [htext piece heq] at hpiece
      exact List.mem_cons_of_mem _ hpiece

/-- Whether a NUL stands in a text shows in the components. -/
theorem contains_nul_congr (h : p.components = q.components) :
    p.text.toList.contains '\x00' = q.text.toList.contains '\x00' := by
  rw [Bool.eq_iff_iff, List.contains_iff_mem, List.contains_iff_mem,
    mem_text_iff (by decide) (by decide), mem_text_iff (by decide) (by decide), h]

/-! ### Extensions -/

/-- A name with an extension is its stem, a dot and the extension. -/
theorem splitName_eq_some (h : splitName n = (stem, some old)) :
    stem ≠ "" ∧ n = stem ++ "." ++ old := by
  simp only [splitName] at h
  split at h
  · next dot c before hdrop =>
    obtain ⟨rfl, hold⟩ : String.ofList (c :: before).reverse = stem ∧ some _ = some old :=
      Prod.mk.inj h
    have hdot : dot = '.' := by
      have := List.head?_dropWhile_not (fun c => c ≠ '.') n.toList.reverse
      rw [hdrop] at this
      simpa using this
    have hparts : n.toList.reverse.takeWhile (· ≠ '.') ++ n.toList.reverse.dropWhile (· ≠ '.') =
        n.toList.reverse := List.takeWhile_append_dropWhile
    rw [hdrop, hdot] at hparts
    obtain ⟨after, hafter⟩ : ∃ after, n.toList.reverse.takeWhile (· ≠ '.') = after := ⟨_, rfl⟩
    rw [hafter] at hold hparts
    obtain rfl := Option.some.inj hold
    have htext := congrArg List.reverse hparts.symm
    rw [List.reverse_reverse] at htext
    refine ⟨fun hnil => ?_, String.ext ?_⟩
    · have := congrArg String.toList hnil
      simp at this
    · simp [htext]
  · simp at h

/-- A stem, a dot and an extension without a dot in it are taken apart again. -/
theorem splitName_of_ending (hstem : stem ≠ "") (hdot : '.' ∉ old.toList) :
    splitName (stem ++ "." ++ old) = (stem, some old) := by
  have hne : stem.toList.reverse ≠ [] := by
    simpa using fun h => hstem (String.toList_eq_nil_iff.1 h)
  obtain ⟨c, before, hcons⟩ := List.exists_cons_of_ne_nil hne
  have hstem' : String.ofList (before.reverse ++ [c]) = stem := by
    rw [← List.reverse_cons, ← hcons, List.reverse_reverse, String.ofList_toList]
  have hpos : ∀ x ∈ old.toList.reverse, decide (x ≠ '.') = true := by
    intro x hx
    have hne : x ≠ '.' := fun heq => hdot (heq ▸ List.mem_reverse.1 hx)
    simpa using hne
  have hback : (stem ++ "." ++ old).toList.reverse =
      old.toList.reverse ++ '.' :: stem.toList.reverse := by simp
  rw [splitName, hback, List.takeWhile_append_of_pos hpos, List.dropWhile_append_of_pos hpos, hcons]
  simp [hstem']

theorem splitName_of_dot (hstem : stem ≠ "") : splitName (stem ++ ".") = (stem, some "") := by
  have hempty : '.' ∉ "".toList := by simp
  simpa using splitName_of_ending hstem hempty

/-- The name is a stem, a dot and the extension. -/
def Bears (n extension : String) : Prop :=
  ∃ stem, stem ≠ "" ∧ n = stem ++ "." ++ extension

theorem extension?_eq_some_iff (hc : p.components = cs ++ [.name n])
    (hdot : '.' ∉ extension.toList) : p.extension? = some extension ↔ Bears n extension := by
  have hname : p.extension? = (splitName n).2 := by simp [extension?, fileName?, hc]
  rw [hname]
  constructor
  · intro hsplit
    exact ⟨_, splitName_eq_some (Prod.ext rfl hsplit : splitName n = (_, some extension))⟩
  · rintro ⟨stem, hstem, rfl⟩
    rw [splitName_of_ending hstem hdot]

/-- The path without some characters at its end. -/
def shortened (p : Path) (count : Nat) : Path :=
  ⟨String.ofList (p.text.toList.take (p.text.length - count))⟩

theorem withExtension_of_some (hold : q.extension? = some old) (extension : String) :
    q.withExtension extension = match (q.shortened old.length).fileName? with
      | none => q.shortened old.length
      | some n => ofPieces ((dropIdleEnd (q.shortened old.length).pieces).dropLast ++
          [(splitName n).1 ++ "." ++ extension]) := by
  unfold withExtension
  rw [hold]
  rfl

/-- What a name ends with can be taken off the path. -/
theorem Neat.pieces_shortened {front : String} (hq : q.Neat (front ++ old)) :
    ∃ outer, q.pieces = outer ++ [front ++ old] ∧
      (q.shortened old.length).pieces = outer ++ [front] := by
  obtain ⟨hn, outer, hpieces⟩ := hq
  have hslash : '/' ∉ old.toList := fun h => hn.no_slash (by simp [h])
  obtain ⟨before, hbefore⟩ : ∃ before, q.text = before ++ old := by
    obtain ⟨outer', last, -, hlast, htext⟩ := Text.exists_last_piece '/' q.text.toList
    have hlast' : String.ofList last = front ++ old := by
      rw [pieces, Text.split, hlast, List.map_append] at hpieces
      exact List.singleton_inj.1 (List.append_inj' hpieces rfl).2
    rcases htext with ⟨-, htext⟩ | ⟨above, -, htext⟩
    · exact ⟨front, by rw [← hlast', ← htext, String.ofList_toList]⟩
    · refine ⟨String.ofList above ++ "/" ++ front, String.ext ?_⟩
      rw [htext, String.append_assoc, ← hlast']
      simp
  have hcut : q.shortened old.length = ⟨before⟩ := by
    rw [shortened, hbefore, String.length_append, Nat.add_sub_cancel, String.toList_append,
      ← String.length_toList, List.take_left, String.ofList_toList]
  obtain ⟨outer', last, hfront, -, hboth⟩ := exists_pieces_suffixed ⟨before⟩ hslash
  rw [← hbefore] at hboth
  obtain ⟨rfl, hlast⟩ := List.append_inj' (hpieces.symm.trans hboth) rfl
  have hsame : front.toList ++ old.toList = last.toList ++ old.toList := by
    rw [← String.toList_append, ← String.toList_append, List.singleton_inj.1 hlast]
  obtain rfl : front = last := String.ext (List.append_cancel_right hsame)
  exact ⟨outer, hpieces, by rw [hcut, hfront]⟩

/-- A stem, a dot and an extension make the name of an entry, unless the stem is a dot. -/
theorem isEntryName_extended (hstem : stem ≠ "") (hup : stem ≠ ".") (hslash : '/' ∉ stem.toList)
    (hextension : '/' ∉ extension.toList) : IsEntryName (stem ++ "." ++ extension) := by
  obtain ⟨c, rest, hcons⟩ := List.exists_cons_of_ne_nil
    (show stem.toList ≠ [] from fun h => hstem (String.toList_eq_nil_iff.1 h))
  have htext : (stem ++ "." ++ extension).toList = c :: (rest ++ '.' :: extension.toList) := by
    simp [hcons]
  refine ⟨?_, ?_, ?_, ?_⟩
  · intro h
    rw [h] at htext
    simp at htext
  · intro h
    rw [h] at htext
    simp at htext
  · intro h
    rw [h] at htext
    obtain ⟨rfl, hrest⟩ := List.cons.inj htext
    have hnil : rest = [] := by
      cases rest with
      | nil => rfl
      | cons b others => simp at hrest
    rw [hnil] at hcons
    exact hup (String.ext hcons)
  · simp only [String.toList_append, List.mem_append, not_or]
    exact ⟨⟨hslash, by decide⟩, hextension⟩

/-- Another extension gives the name of another entry of the same directory, or leads out of it
if the name is all dots and extension. -/
theorem withExtension_spec (hq : q.Neat n) (hc : q.components = cs ++ [.name n])
    (hsplit : splitName n = (stem, some old)) (hextension : '/' ∉ extension.toList) :
    stem = "." ∧ (q.withExtension extension).components = cs ++ [.up] ∨
      stem ≠ "." ∧ (q.withExtension extension).Neat (stem ++ "." ++ extension) ∧
        (q.withExtension extension).components = cs ++ [.name (stem ++ "." ++ extension)] := by
  obtain ⟨hstem, rfl⟩ := splitName_eq_some hsplit
  obtain ⟨outer, hpieces, hcut⟩ := hq.pieces_shortened
  have hold : q.extension? = some old := by
    simp [extension?, fileName?, hc, hsplit]
  rw [withExtension_of_some hold]
  generalize q.shortened old.length = cut at hcut ⊢
  -- the components up to the name are told from the pieces before it
  obtain ⟨cs', hcs'⟩ := exists_components_concat outer
  obtain rfl : cs' = cs := by
    obtain ⟨c, hq', rfl | ⟨hhere, -⟩⟩ := hcs' q _ hpieces
    · rw [hc, Component.ofPiece?_name hq.1] at hq'
      exact (List.append_inj' hq' rfl).1.symm
    · exact absurd hhere hq.1.ne_here
  have hcomponents : ∀ (p : Path) (last : String), p.pieces = outer ++ [last] → last ≠ "." →
      p.components = cs' ++ (Component.ofPiece? last).toList := by
    intro p last hlast hne
    obtain ⟨c, hp, rfl | ⟨hhere, -⟩⟩ := hcs' p last hlast
    · exact hp
    · exact absurd hhere hne
  by_cases hup : stem = "."
  · refine Or.inl ⟨hup, ?_⟩
    have hlast : cut.components = cs' ++ [.up] := by
      rw [hcomponents cut _ hcut (by rw [hup]; decide), hup]
      rfl
    have hname : cut.fileName? = none := by
      simp [fileName?, hlast]
    rw [hname]
    exact hlast
  · have hslash : '/' ∉ stem.toList := fun h => hq.1.no_slash (by simp [h])
    have hstemmed : IsEntryName (stem ++ ".") := by
      have h := isEntryName_extended hstem hup hslash (show '/' ∉ "".toList by decide)
      rwa [String.append_empty] at h
    have hextended := isEntryName_extended hstem hup hslash hextension
    have hlast : cut.components = cs' ++ [.name (stem ++ ".")] := by
      rw [hcomponents cut _ hcut hstemmed.ne_here, Component.ofPiece?_name hstemmed]
      rfl
    have hname : cut.fileName? = some (stem ++ ".") := by
      simp [fileName?, hlast]
    have hidle : dropIdleEnd (outer ++ [stem ++ "."]) = outer ++ [stem ++ "."] := by
      simp [dropIdleEnd, isIdle, hstemmed.ne_empty, hstemmed.ne_here]
    have hend : (ofPieces (outer ++ [stem ++ "." ++ extension])).pieces =
        outer ++ [stem ++ "." ++ extension] := by
      refine pieces_ofPieces (by simp) fun piece hpiece => ?_
      rcases List.mem_append.1 hpiece with houter | hpiece
      · exact no_slash_of_mem_pieces (by rw [hcut]; exact List.mem_append_left _ houter)
      · rw [List.mem_singleton.1 hpiece]
        exact hextended.no_slash
    refine Or.inr ⟨hup, ?_⟩
    rw [hname]
    simp only [hcut, hidle, List.dropLast_concat, splitName_of_dot hstem]
    refine ⟨⟨hextended, outer, hend⟩, ?_⟩
    rw [hcomponents _ _ hend hextended.ne_here, Component.ofPiece?_name hextended]
    rfl

end Path

end GemCourier
