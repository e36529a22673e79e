/-
GemCourier/Proofs/Path/Relative.lean

What is left of a path below a base.

The remainder keeps its spelling, so it is cut out of the pieces of the path and
not written from components.  Dropping pieces that count drops as many
components, dropping idle ones drops none, and what is put together again reads
as the components that are left, which can be joined to any other path.

That holds below a base without components too, where what is left is the whole
path, trimmed at its end.

Main results: `exists_relativeTo?`, `components_relativeTo?`, `components_join_relative`.
-/
import GemCourier.Proofs.Path.Joining

namespace GemCourier.Path

/-! ### Paths put together from pieces -/

theorem toList_ofPieces (ps : List String) :
    (ofPieces ps).text.toList = ['/'].intercalate (ps.map String.toList) :=
  String.toList_intercalate

/-- Cutting what was put together gives the pieces back. -/
theorem pieces_ofPieces {ps : List String} (hne : ps ≠ []) (h : ∀ piece ∈ ps, '/' ∉ piece.toList) :
    (ofPieces ps).pieces = ps := by
  -- on lists of characters, where cutting is defined by recursion
  have hchars : Text.pieces '/' (ofPieces ps).text.toList = ps.map String.toList := by
    rw [toList_ofPieces, ← Text.glue_eq_intercalate]
    refine Text.pieces_glue (by simpa using hne) fun text htext => ?_
    obtain ⟨piece, hpiece, rfl⟩ := List.mem_map.1 htext
    exact h piece hpiece
  rw [pieces, Text.split, hchars, List.map_map]
  simp [Function.comp_def]

/-- Putting what was cut together again gives the path back. -/
theorem ofPieces_pieces (p : Path) : ofPieces p.pieces = p := by
  have htext : (ofPieces p.pieces).text.toList = p.text.toList := by
    rw [toList_ofPieces, pieces, Text.split, List.map_map]
    simp [Function.comp_def, ← Text.glue_eq_intercalate, Text.glue_pieces]
  obtain ⟨text⟩ := p
  exact congrArg Path.mk (String.ext htext)

/-! ### Pieces that count -/

theorem isIdle_iff {piece : String} : isIdle piece = true ↔ Component.ofPiece? piece = none := by
  simp only [isIdle, Component.ofPiece?, Bool.or_eq_true, decide_eq_true_eq]
  split
  · next h => simp [h]
  · next h =>
    split <;> simp [h]

theorem filterMap_dropWhile_idle (ps : List String) :
    (ps.dropWhile isIdle).filterMap Component.ofPiece? = ps.filterMap Component.ofPiece? := by
  induction ps with
  | nil => rfl
  | cons p rest ih =>
    rw [List.dropWhile_cons]
    split
    · next hidle => rw [ih, List.filterMap_cons_none (isIdle_iff.1 hidle)]
    · rfl

theorem filterMap_dropIdleEnd (ps : List String) :
    (dropIdleEnd ps).filterMap Component.ofPiece? = ps.filterMap Component.ofPiece? := by
  rw [dropIdleEnd, List.filterMap_reverse, filterMap_dropWhile_idle, List.filterMap_reverse,
    List.reverse_reverse]

theorem filterMap_dropCounting (n : Nat) (ps : List String) :
    (dropCounting n ps).filterMap Component.ofPiece? =
      (ps.filterMap Component.ofPiece?).drop n := by
  induction ps generalizing n with
  | nil => cases n <;> simp [dropCounting]
  | cons p rest ih =>
    cases n with
    | zero => simp [dropCounting]
    | succ n =>
      rw [dropCounting]
      split
      · next hidle => rw [ih, List.filterMap_cons_none (isIdle_iff.1 hidle)]
      · next hidle =>
        obtain ⟨c, hc⟩ := Option.ne_none_iff_exists'.1 (mt isIdle_iff.2 hidle)
        rw [ih, List.filterMap_cons_some hc, List.drop_succ_cons]

theorem dropIdleEnd_prefix (ps : List String) : dropIdleEnd ps <+: ps := by
  rw [dropIdleEnd, ← List.reverse_suffix, List.reverse_reverse]
  exact List.dropWhile_suffix _

theorem mem_of_mem_dropCounting {n : Nat} {ps : List String} {piece : String}
    (h : piece ∈ dropCounting n ps) : piece ∈ ps := by
  induction ps generalizing n with
  | nil => cases n <;> simp [dropCounting] at h
  | cons p rest ih =>
    cases n with
    | zero => exact h
    | succ n =>
      rw [dropCounting] at h
      split at h
      · exact List.mem_cons_of_mem p (ih h)
      · exact List.mem_cons_of_mem p (ih h)

/-! ### What is left below a base -/

/-- A path can be joined to another one by its components: it is relative and does not open
with a `.`. -/
structure Joinable (p : Path) : Prop where
  relative : p.isAbsolute = false
  no_here : p.pieces.head? ≠ some "."

theorem components_join_relative {p q : Path} (h : q.Joinable) :
    (p.join q).components = p.components ++ q.components :=
  components_join h.relative h.no_here

/-- Pieces without idle ones at either end make a path that can be joined. -/
theorem joinable_ofPieces {ps : List String} (hps : ∀ piece ∈ ps, '/' ∉ piece.toList) :
    (ofPieces (dropIdleEnd (ps.dropWhile isIdle))).Joinable ∧
      (ofPieces (dropIdleEnd (ps.dropWhile isIdle))).components =
        ps.filterMap Component.ofPiece? := by
  rw [← filterMap_dropWhile_idle ps, ← filterMap_dropIdleEnd (ps.dropWhile isIdle)]
  have hinitial := dropIdleEnd_prefix (ps.dropWhile isIdle)
  cases hbody : dropIdleEnd (ps.dropWhile isIdle) with
  | nil => exact ⟨⟨by decide, by decide⟩, by decide⟩
  | cons first rest =>
    rw [hbody] at hinitial
    have hmem : ∀ piece ∈ first :: rest, '/' ∉ piece.toList := fun piece hpiece =>
      hps piece ((List.dropWhile_sublist _).mem (hinitial.mem hpiece))
    -- what the cut left in front counts
    have hcounts : isIdle first = false := by
      obtain ⟨more, hmore⟩ := hinitial
      have := List.head_dropWhile_not isIdle (l := ps) (by rw [← hmore]; simp)
      simpa [← hmore] using this
    have hne : first ≠ "" := fun e => by simp [e, isIdle] at hcounts
    have hhere : first ≠ "." := fun e => by simp [e, isIdle] at hcounts
    have hpieces := pieces_ofPieces (by simp) hmem
    -- a first piece that is not empty does not open with a slash
    have habsolute : (ofPieces (first :: rest)).isAbsolute = false := by
      obtain ⟨c, chars, hc⟩ := List.exists_cons_of_ne_nil
        (fun e => hne (String.toList_eq_nil_iff.1 e) : first.toList ≠ [])
      have hslash : c ≠ '/' := fun e => hmem first (by simp) (by simp [hc, e])
      rw [isAbsolute, toList_ofPieces]
      cases rest <;> simp [hc, hslash, List.intercalate_cons_cons]
    refine ⟨⟨habsolute, by simpa [hpieces] using hhere⟩, ?_⟩
    rw [components_eq hpieces]
    cases h : Component.ofPiece? first <;> simp [leading?, habsolute, hhere, h]

/-- What is left behind some components is put together from the pieces that count behind them,
without idle ones at either end. -/
theorem exists_pieces_dropComponents (p : Path) (n : Nat) :
    ∃ ps : List String, (∀ piece ∈ ps, piece ∈ p.pieces) ∧
      ps.filterMap Component.ofPiece? = p.components.drop (n + 1) ∧
      p.dropComponents (n + 1) = ofPieces (dropIdleEnd (ps.dropWhile isIdle)) := by
  obtain ⟨first, rest, hpieces⟩ := List.exists_cons_of_ne_nil p.pieces_ne_nil
  rw [dropComponents, hpieces]
  dsimp only
  rw [components_eq hpieces]
  by_cases hfixed : (p.isAbsolute || decide (first = ".")) = true
  · -- the first piece is a component whatever it is
    rw [if_pos hfixed]
    refine ⟨_, fun piece hpiece => List.mem_cons_of_mem _ (mem_of_mem_dropCounting hpiece), ?_, rfl⟩
    have hleading : ∃ c, leading? p.isAbsolute first = some c := by
      rw [leading?]
      by_cases habsolute : p.isAbsolute = true
      · exact ⟨.root, by simp [habsolute]⟩
      · have hhere : first = "." := by simpa [habsolute] using hfixed
        exact ⟨.here, by simp [habsolute, hhere]⟩
    obtain ⟨c, hc⟩ := hleading
    rw [filterMap_dropCounting, hc]
    simp
  · -- the first piece is one among the others, counting or not
    rw [if_neg hfixed]
    refine ⟨_, fun piece hpiece => mem_of_mem_dropCounting hpiece, ?_, rfl⟩
    simp only [Bool.or_eq_true, decide_eq_true_eq, not_or, Bool.not_eq_true] at hfixed
    rw [filterMap_dropCounting]
    cases h : Component.ofPiece? first <;> simp [leading?, hfixed.1, hfixed.2, h]

theorem dropComponents_succ (p : Path) (n : Nat) :
    (p.dropComponents (n + 1)).Joinable ∧
      (p.dropComponents (n + 1)).components = p.components.drop (n + 1) := by
  obtain ⟨ps, hps, hcomponents, hdrop⟩ := p.exists_pieces_dropComponents n
  rw [hdrop, ← hcomponents]
  exact joinable_ofPieces fun piece hpiece => no_slash_of_mem_pieces (hps piece hpiece)

/-- Below a base that has components, what is left of a path are its other components, and it
can be joined. -/
theorem exists_relativeTo? {p base : Path} {cs : List Component} (hbase : base.components ≠ [])
    (h : p.components = base.components ++ cs) :
    ∃ r, p.relativeTo? base = some r ∧ r.Joinable ∧ r.components = cs := by
  obtain ⟨n, hn⟩ := Nat.exists_eq_succ_of_ne_zero
    (fun e => hbase (List.length_eq_zero_iff.1 e) : base.components.length ≠ 0)
  obtain ⟨hjoinable, hcomponents⟩ := dropComponents_succ p n
  refine ⟨p.dropComponents base.components.length, ?_, ?_, ?_⟩
  · rw [relativeTo?, if_pos]
    rw [List.isPrefixOf_iff_prefix, h]
    exact List.prefix_append _ _
  · rw [hn]
    exact hjoinable
  · rw [hn, hcomponents, ← Nat.succ_eq_add_one, ← hn, h, List.drop_left]

/-! ### Below any base -/

/-- Only a path with an empty piece in front of a slash starts at the root. -/
theorem isAbsolute_iff {p : Path} {first : String} {rest : List String}
    (h : p.pieces = first :: rest) : p.isAbsolute = true ↔ first = "" ∧ rest ≠ [] := by
  obtain ⟨text⟩ := p
  rw [pieces, Text.split] at h
  cases hchars : text.toList with
  | nil =>
    rw [hchars] at h
    simp_all [isAbsolute, Text.pieces]
  | cons c chars =>
    rw [hchars] at h
    by_cases hc : c = '/'
    · have hpieces : "" :: (Text.pieces '/' chars).map String.ofList = first :: rest := by
        simpa [Text.pieces, hc] using h
      obtain ⟨rfl, rfl⟩ := List.cons.inj hpieces
      simp [isAbsolute, hchars, hc, Text.pieces_ne_nil]
    · obtain ⟨piece, others, hothers⟩ := List.exists_cons_of_ne_nil (Text.pieces_ne_nil '/' chars)
      have hpieces : String.ofList (c :: piece) :: others.map String.ofList = first :: rest := by
        simpa [Text.pieces, hc, hothers] using h
      obtain ⟨rfl, rfl⟩ := List.cons.inj hpieces
      simp [isAbsolute, hchars, hc]

/-- Every path but the empty text has components. -/
theorem components_ne_nil {p : Path} (h : p.text ≠ "") : p.components ≠ [] := by
  obtain ⟨first, rest, hpieces⟩ := List.exists_cons_of_ne_nil p.pieces_ne_nil
  intro hnil
  rw [components_eq hpieces, List.append_eq_nil_iff, Option.toList_eq_nil_iff] at hnil
  obtain ⟨hleading, -⟩ := hnil
  have habsolute : p.isAbsolute = false := by
    cases habsolute : p.isAbsolute with
    | true => simp [leading?, habsolute] at hleading
    | false => rfl
  have hfirst : first = "" := by
    by_contra hne
    by_cases hhere : first = "." <;> by_cases hup : first = ".." <;>
      simp_all [leading?, Component.ofPiece?]
  have hrest : rest = [] := by
    by_contra hne
    rw [(isAbsolute_iff hpieces).2 ⟨hfirst, hne⟩] at habsolute
    cases habsolute
  -- one empty piece is the empty text
  refine h (String.toList_eq_nil_iff.1 ?_)
  rw [pieces, Text.split, hfirst, hrest, List.map_eq_singleton_iff] at hpieces
  obtain ⟨piece, hone, hempty⟩ := hpieces
  rw [← Text.glue_pieces '/' p.text.toList, hone]
  show piece = []
  simpa using congrArg String.toList hempty

/-- A relative path that does not open with a `.` has the components of all its pieces. -/
theorem components_of_relative {p : Path} {first : String} {rest : List String}
    (h : p.pieces = first :: rest) (habsolute : p.isAbsolute = false) (hhere : first ≠ ".") :
    p.components = (first :: rest).filterMap Component.ofPiece? := by
  rw [components_eq h]
  cases hfirst : Component.ofPiece? first <;> simp [leading?, habsolute, hhere, hfirst]

/-- Trimming a path at its end leaves its components. -/
theorem components_dropComponents_zero (p : Path) :
    (p.dropComponents 0).components = p.components := by
  obtain ⟨first, rest, hpieces⟩ := List.exists_cons_of_ne_nil p.pieces_ne_nil
  have hslash : ∀ piece ∈ first :: rest, '/' ∉ piece.toList := fun piece hpiece =>
    no_slash_of_mem_pieces (p := p) (by rw [hpieces]; exact hpiece)
  rw [dropComponents, hpieces]
  dsimp only
  by_cases hfixed : (p.isAbsolute || decide (first = ".")) = true
  · rw [if_pos hfixed, components_eq hpieces, ← filterMap_dropIdleEnd rest]
    have hinitial := dropIdleEnd_prefix rest
    cases hbody : dropIdleEnd rest with
    | nil =>
      -- nothing counts but the front
      by_cases habsolute : p.isAbsolute = true
      · have hroot : (Path.mk "/").components = [.root] := by decide
        simp [habsolute, leading?, hroot]
      · have hhere : first = "." := by simpa [habsolute] using hfixed
        have hdot : (Path.mk ".").components = [.here] := by decide
        simp [habsolute, hhere, leading?, hdot]
    | cons second more =>
      rw [hbody] at hinitial
      have hmem : ∀ piece ∈ first :: second :: more, '/' ∉ piece.toList := fun piece hpiece =>
        hslash piece (List.mem_cons.2 ((List.mem_cons.1 hpiece).imp_right hinitial.mem))
      have htrimmed := pieces_ofPieces (by simp) hmem
      have hrest : rest ≠ [] := by
        rintro rfl
        exact absurd (List.prefix_nil.1 hinitial) (by simp)
      have habsolute : (ofPieces (first :: second :: more)).isAbsolute = p.isAbsolute := by
        rw [Bool.eq_iff_iff, isAbsolute_iff htrimmed, isAbsolute_iff hpieces]
        simp [hrest]
      dsimp only
      rw [components_eq htrimmed, habsolute]
  · simp only [Bool.or_eq_true, decide_eq_true_eq, not_or, Bool.not_eq_true] at hfixed
    obtain ⟨habsolute, hhere⟩ := hfixed
    rw [components_of_relative hpieces habsolute hhere, ← filterMap_dropIdleEnd (first :: rest)]
    have hinitial := dropIdleEnd_prefix (first :: rest)
    simp only [habsolute, hhere, decide_false, Bool.or_self, Bool.false_eq_true, if_false]
    cases hbody : dropIdleEnd (first :: rest) with
    | nil => decide
    | cons first' more =>
      rw [hbody] at hinitial
      obtain ⟨rfl, hmore⟩ := List.cons_prefix_cons.1 hinitial
      have htrimmed := pieces_ofPieces (by simp) fun piece hpiece =>
        hslash piece (hinitial.mem hpiece)
      -- more than one piece is left only if there was more than one
      have hrelative : (ofPieces (first' :: more)).isAbsolute = false := by
        refine Bool.eq_false_iff.2 fun h => Bool.eq_false_iff.1 habsolute ?_
        obtain ⟨hempty, hne⟩ := (isAbsolute_iff htrimmed).1 h
        refine (isAbsolute_iff hpieces).2 ⟨hempty, ?_⟩
        rintro rfl
        exact hne (List.prefix_nil.1 hmore)
      exact components_of_relative htrimmed hrelative hhere

/-- What is left of a path below a base are its other components. -/
theorem components_relativeTo? {p base r : Path} (h : p.relativeTo? base = some r) :
    p.components = base.components ++ r.components := by
  rw [relativeTo?] at h
  split at h
  · next hinitial =>
    obtain ⟨cs, hcs⟩ := List.isPrefixOf_iff_prefix.1 hinitial
    cases h
    have hdrop : (p.dropComponents base.components.length).components =
        p.components.drop base.components.length := by
      cases base.components.length with
      | zero => exact components_dropComponents_zero p
      | succ n => exact (dropComponents_succ p n).2
    rw [hdrop, ← hcs, List.drop_left]
  · cases h

/-- A path can be joined to another one if its components do not say where it starts. -/
theorem joinable_of_components {p : Path}
    (h : ∀ c, p.components.head? = some c → c ≠ .root ∧ c ≠ .here) : p.Joinable := by
  obtain ⟨first, rest, hpieces⟩ := List.exists_cons_of_ne_nil p.pieces_ne_nil
  rw [components_eq hpieces] at h
  have hrelative : p.isAbsolute = false := by
    refine Bool.eq_false_iff.2 fun habsolute => ?_
    exact (h .root (by simp [leading?, habsolute])).1 rfl
  refine ⟨hrelative, fun hhere => ?_⟩
  have hfirst : first = "." := by simpa [hpieces] using hhere
  exact (h .here (by simp [leading?, hrelative, hfirst])).2 rfl

theorem relativeTo?_eq_none {p base : Path} :
    p.relativeTo? base = none ↔ ¬ base.components <+: p.components := by
  rw [relativeTo?, ← List.isPrefixOf_iff_prefix]
  split <;> simp_all

end GemCourier.Path
