/-
GemCourier/Proofs/Path/Folding.lean

What folding leaves of a path.

Folding reads the components of a path onto a stack.  Whatever comes next, the
stack keeps one of two shapes (`Folded`): behind a root there are names only,
and without one all `..` stand before the names.  A list of that shape is folded
to itself, so a path that was folded stays as it is when it is folded again.

The components of a path, each with its slash, take no more bytes than its text
and one slash more, so no path gets longer by being written again from some of
them, and folding makes no path too long.

Main results: `folded_foldComponents`, `foldComponents_of_folded`,
`components_foldDots`, `utf8ByteSize_part_le`, `spread_moves_le`.
-/
import GemCourier.Proofs.Disk.Entering

namespace GemCourier.Path

variable {absolute : Bool} {cs : List Component} {c d : Component}

/-! ### The shape of what is folded -/

/-- What folding leaves of a path, absolute or not: names behind the root, or the `..` that lead
out of the start and then names. -/
inductive Folded : Bool → List Component → Prop
  | absolute (names : List String) : Folded true (.root :: names.map .name)
  | relative (ups : Nat) (names : List String) :
      Folded false (List.replicate ups .up ++ names.map .name)

@[simp] theorem foldStep_name (cs : List Component) (n : String) :
    foldStep cs (.name n) = cs ++ [.name n] :=
  rfl

@[simp] theorem foldStep_up_name (cs : List Component) (n : String) :
    foldStep (cs ++ [.name n]) .up = cs := by
  simp [foldStep]

theorem foldStep_up_ups (ups : Nat) :
    foldStep (List.replicate ups .up) .up = List.replicate (ups + 1) .up := by
  rw [foldStep, List.replicate_succ']
  cases ups with
  | zero => rfl
  | succ ups => simp [List.getLast?_replicate]

namespace Folded

/-- One component more, and the shape is the same. -/
theorem step (h : Folded absolute cs) (hc : c ≠ .root) : Folded absolute (foldStep cs c) := by
  cases c with
  | root => exact absurd rfl hc
  | here => exact h
  | name n =>
    rw [foldStep_name]
    cases h with
    | absolute names => simpa using Folded.absolute (names ++ [n])
    | relative ups names => simpa using Folded.relative ups (names ++ [n])
  | up =>
    cases h with
    | absolute names =>
      rcases List.eq_nil_or_concat names with rfl | ⟨outer, n, rfl⟩
      · exact .absolute []
      · rw [List.concat_eq_append, List.map_append, ← List.cons_append, List.map_singleton,
          foldStep_up_name]
        exact .absolute outer
    | relative ups names =>
      rcases List.eq_nil_or_concat names with rfl | ⟨outer, n, rfl⟩
      · rw [List.map_nil, List.append_nil, foldStep_up_ups]
        simpa using Folded.relative (ups + 1) []
      · rw [List.concat_eq_append, List.map_append, ← List.append_assoc, List.map_singleton,
          foldStep_up_name]
        exact .relative ups outer

theorem run {more : List Component} (h : Folded absolute cs) (hmore : .root ∉ more) :
    Folded absolute (more.foldl foldStep cs) := by
  induction more generalizing cs with
  | nil => exact h
  | cons c rest ih =>
    rw [List.mem_cons, not_or] at hmore
    exact ih (h.step (Ne.symm hmore.1)) hmore.2

theorem front (h : Folded absolute cs) : ∀ c ∈ cs.tail, c ≠ .root ∧ c ≠ .here := by
  cases h with
  | absolute names => simp
  | relative ups names =>
    intro c hc
    have hmem := List.mem_of_mem_tail hc
    simp only [List.mem_append, List.mem_replicate, List.mem_map] at hmem
    rcases hmem with ⟨-, rfl⟩ | ⟨n, -, rfl⟩ <;> simp

theorem head?_eq_root_iff (h : Folded absolute cs) :
    cs.head? = some .root ↔ absolute = true := by
  cases h with
  | absolute names => simp
  | relative ups names => cases ups <;> cases names <;> simp [List.replicate_succ]

end Folded

/-- The root is no step. -/
theorem root_not_mem_moves (p : Path) : .root ∉ p.steps.filterMap Step.component? := by
  intro hroot
  obtain ⟨step, -, hstep⟩ := List.mem_filterMap.1 hroot
  cases step <;> cases hstep

/-- The components of a path, folded: the root of an absolute path with what its steps do to it,
or what the steps of a relative path do from the start. -/
theorem foldComponents_components (p : Path) : foldComponents p.components =
    (p.steps.filterMap Step.component?).foldl foldStep (if p.isAbsolute then [.root] else []) := by
  obtain ⟨front, hcomponents, hfront⟩ := p.exists_components_eq_steps
  rw [foldComponents, hcomponents, List.foldl_append]
  rcases hfront with ⟨rfl, habsolute⟩ | ⟨rfl, habsolute⟩ | ⟨rfl, habsolute⟩ <;>
    rw [habsolute] <;> rfl

theorem folded_foldComponents (p : Path) : Folded p.isAbsolute (foldComponents p.components) := by
  rw [foldComponents_components]
  refine Folded.run ?_ p.root_not_mem_moves
  cases p.isAbsolute with
  | true => exact .absolute []
  | false => exact .relative 0 []

/-! ### Folding again -/

theorem foldl_foldStep_names (cs : List Component) (names : List String) :
    (names.map .name).foldl foldStep cs = cs ++ names.map .name := by
  induction names generalizing cs with
  | nil => simp
  | cons n rest ih => rw [List.map_cons, List.foldl_cons, ih, foldStep_name, ← List.append_cons]

theorem foldComponents_ups (ups : Nat) :
    foldComponents (List.replicate ups .up) = List.replicate ups .up := by
  induction ups with
  | zero => rfl
  | succ ups ih =>
    rw [List.replicate_succ', foldComponents, List.foldl_append, ← foldComponents, ih,
      List.foldl_cons, List.foldl_nil, foldStep_up_ups, ← List.replicate_succ']

/-- Nothing is left to fold in a list of the shape that folding leaves. -/
theorem foldComponents_of_folded (h : Folded absolute cs) : foldComponents cs = cs := by
  cases h with
  | absolute names => exact foldl_foldStep_names [.root] names
  | relative ups names =>
    rw [foldComponents, List.foldl_append, ← foldComponents, foldComponents_ups,
      foldl_foldStep_names]

/-- What stands on the stack was there before, or is the component that was read. -/
theorem mem_of_mem_foldStep (h : d ∈ foldStep cs c) : d ∈ cs ∨ d = c := by
  cases c with
  | here => exact Or.inl h
  | root => simpa [foldStep] using h
  | name n => simpa using h
  | up =>
    rw [foldStep] at h
    split at h
    · exact Or.inl (List.mem_of_mem_dropLast h)
    · exact Or.inl h
    · simpa using h

theorem mem_of_mem_foldComponents (h : d ∈ foldComponents cs) : d ∈ cs := by
  induction cs using List.reverseRecOn with
  | nil => exact h
  | append_singleton cs c ih =>
    rw [foldComponents, List.foldl_append, ← foldComponents] at h
    rcases mem_of_mem_foldStep h with hd | rfl
    · exact List.mem_append_left _ (ih hd)
    · simp

/-- A path that was folded is read as what folding left. -/
theorem components_foldDots (p : Path) : (foldDots p).components = foldComponents p.components :=
  components_ofComponents ⟨(folded_foldComponents p).front,
    fun n hn => (canonical_components p).names n (mem_of_mem_foldComponents hn)⟩

theorem isAbsolute_foldDots (p : Path) : (foldDots p).isAbsolute = p.isAbsolute := by
  rw [Bool.eq_iff_iff, isAbsolute_iff_head, components_foldDots,
    (folded_foldComponents p).head?_eq_root_iff]

/-- A path that was folded stays as it is. -/
theorem foldDots_foldDots (p : Path) : foldDots (foldDots p) = foldDots p := by
  rw [foldDots, components_foldDots, foldComponents_of_folded (folded_foldComponents p), foldDots]

/-! ### The length of what is written from components -/

/-- How many bytes texts take, each with a slash. -/
def spread : List String → Nat
  | [] => 0
  | text :: rest => text.utf8ByteSize + 1 + spread rest

@[simp] theorem spread_nil : spread [] = 0 :=
  rfl

@[simp] theorem spread_cons (text : String) (rest : List String) :
    spread (text :: rest) = text.utf8ByteSize + 1 + spread rest :=
  rfl

@[simp] theorem spread_append (texts more : List String) :
    spread (texts ++ more) = spread texts + spread more := by
  induction texts with
  | nil => simp
  | cons text rest ih =>
    rw [List.cons_append, spread_cons, spread_cons, ih]
    omega

theorem spread_dropLast_le (texts : List String) : spread texts.dropLast ≤ spread texts := by
  rcases List.eq_nil_or_concat texts with rfl | ⟨outer, last, rfl⟩
  · simp
  · simp

/-- The pieces of a path take the bytes of its text, and one slash more. -/
theorem spread_pieces (p : Path) : spread p.pieces = p.text.utf8ByteSize + 1 := by
  have hsize : ∀ first rest, (ofPieces (first :: rest)).text.utf8ByteSize + 1 =
      spread (first :: rest) := by
    intro first rest
    induction rest generalizing first with
    | nil => simp [ofPieces]
    | cons next others ih =>
      rw [spread_cons, ← ih next]
      simp only [ofPieces, String.intercalate_cons_cons, String.utf8ByteSize_append]
      have hslash : "/".utf8ByteSize = 1 := by decide
      omega
  obtain ⟨first, rest, hpieces⟩ := List.exists_cons_of_ne_nil p.pieces_ne_nil
  rw [hpieces, ← hsize, ← hpieces, ofPieces_pieces]

theorem utf8ByteSize_child_le (p : Path) (n : String) :
    (p.child n).text.utf8ByteSize ≤ p.text.utf8ByteSize + (n.utf8ByteSize + 1) := by
  have hslash : "/".utf8ByteSize = 1 := by decide
  rw [child, join]
  split
  · show n.utf8ByteSize ≤ _
    omega
  · split <;> simp only [String.utf8ByteSize_append] <;> omega

theorem utf8ByteSize_descend_le (p : Path) (names : List String) :
    (p.descend names).text.utf8ByteSize ≤ p.text.utf8ByteSize + spread names := by
  induction names generalizing p with
  | nil => simp [descend]
  | cons n rest ih =>
    have hchild := utf8ByteSize_child_le p n
    have hrest := ih (p.child n)
    rw [descend_cons, spread_cons]
    omega

theorem spread_le_of_prefix {texts more : List String} (h : texts <+: more) :
    spread texts ≤ spread more := by
  obtain ⟨rest, rfl⟩ := h
  rw [spread_append]
  omega

/-- Pieces that count for nothing take their bytes all the same. -/
theorem spread_counting_le (pieces : List String) :
    spread ((pieces.filterMap Component.ofPiece?).map Component.text) ≤ spread pieces := by
  induction pieces with
  | nil => simp
  | cons piece rest ih =>
    cases hpiece : Component.ofPiece? piece with
    | none =>
      rw [List.filterMap_cons_none hpiece, spread_cons]
      omega
    | some c =>
      rw [List.filterMap_cons_some hpiece, List.map_cons, spread_cons, spread_cons,
        (Component.ofPiece?_eq_some hpiece).2.2]
      omega

/-- The components of a path take the bytes of its text and one slash more, and those of an
absolute path another one, for the root is written as a slash. -/
theorem spread_components_le (p : Path) : spread (p.components.map Component.text) ≤
    p.text.utf8ByteSize + 1 + if p.isAbsolute then 1 else 0 := by
  obtain ⟨first, rest, hpieces⟩ := List.exists_cons_of_ne_nil p.pieces_ne_nil
  have hsize := spread_pieces p
  have hrest := spread_counting_le rest
  rw [hpieces, spread_cons] at hsize
  rw [components_eq hpieces, List.map_append, spread_append]
  have hfirst : spread ((leading? p.isAbsolute first).toList.map Component.text) ≤
      first.utf8ByteSize + 1 + if p.isAbsolute then 1 else 0 := by
    by_cases habsolute : p.isAbsolute = true
    · obtain ⟨rfl, -⟩ := (isAbsolute_iff hpieces).1 habsolute
      rw [habsolute]
      decide
    · by_cases hhere : first = "."
      · simp [leading?, habsolute, hhere, Component.text]
      · cases hpiece : Component.ofPiece? first with
        | none => simp [leading?, habsolute, hhere, hpiece]
        | some c =>
          simp [leading?, habsolute, hhere, hpiece, (Component.ofPiece?_eq_some hpiece).2.2]
  omega

theorem ofComponents_cons (c : Component) (cs : List Component) :
    ofComponents (c :: cs) = (Path.mk c.text).descend (cs.map Component.text) := by
  have hfirst : (Path.mk "").child c.text = ⟨c.text⟩ := by
    rw [child, join]
    split
    · rfl
    · simp
  rw [ofComponents, List.foldl_cons, hfirst, descend, List.foldl_map]

/-- What is written from components behind a root takes no more bytes than the root, or than they
do, each with its slash. -/
theorem utf8ByteSize_ofComponents_root_le (cs : List Component) :
    (ofComponents (.root :: cs)).text.utf8ByteSize ≤ max 1 (spread (cs.map Component.text)) := by
  have hone : "/".utf8ByteSize = 1 := by decide
  rw [ofComponents_cons]
  cases cs with
  | nil => exact hone.le.trans (le_max_left 1 _)
  | cons c rest =>
    -- the slash of the root stands before the first component
    have hfirst : ((Path.mk "/").child c.text).text.utf8ByteSize ≤ c.text.utf8ByteSize + 1 := by
      have hslash : (Path.mk "/").endsInSlash = true := by decide
      rw [child, join]
      split
      · exact Nat.le_succ _
      · rw [if_pos (Or.inr hslash), String.utf8ByteSize_append, hone, Nat.add_comm]
    have hrest := utf8ByteSize_descend_le ((Path.mk "/").child c.text) (rest.map Component.text)
    rw [List.map_cons, show Component.root.text = "/" from rfl, descend_cons, spread_cons]
    omega

/-- A path that is written from the first components of another one is no longer. -/
theorem utf8ByteSize_part_le {p : Path} (hcs : cs <+: p.components) (hne : cs ≠ []) :
    (ofComponents cs).text.utf8ByteSize ≤ p.text.utf8ByteSize := by
  have hspread := spread_components_le p
  have hpart := spread_le_of_prefix (hcs.map Component.text)
  obtain ⟨c, rest, rfl⟩ := List.exists_cons_of_ne_nil hne
  rw [List.map_cons, spread_cons] at hpart
  by_cases habsolute : p.isAbsolute = true
  · obtain rfl : c = .root := by
      obtain ⟨more, hmore⟩ := hcs
      have hhead := isAbsolute_iff_head.1 habsolute
      rw [← hmore] at hhead
      exact Option.some.inj hhead
    have htext : 1 ≤ p.text.utf8ByteSize := by
      refine Nat.one_le_iff_ne_zero.2 fun hzero => ?_
      rw [isAbsolute, String.utf8ByteSize_eq_zero_iff.1 hzero] at habsolute
      cases habsolute
    have hroot := utf8ByteSize_ofComponents_root_le rest
    have hone : Component.root.text.utf8ByteSize = 1 := by decide
    rw [habsolute, if_pos rfl] at hspread
    omega
  · have hrest := utf8ByteSize_descend_le ⟨c.text⟩ (rest.map Component.text)
    rw [if_neg habsolute] at hspread
    rw [ofComponents_cons]
    simp only at hrest
    omega

/-- What the steps of an absolute path go down takes no more bytes than its text. -/
theorem spread_moves_le {p : Path} (h : p.isAbsolute = true) :
    spread ((p.steps.filterMap Step.component?).map Component.text) ≤ p.text.utf8ByteSize := by
  obtain ⟨first, rest, hpieces⟩ := List.exists_cons_of_ne_nil p.pieces_ne_nil
  -- the empty piece before the first slash is no step
  obtain ⟨rfl, -⟩ := (isAbsolute_iff hpieces).1 h
  have hsize := spread_pieces p
  rw [hpieces, spread_cons, String.utf8ByteSize_empty] at hsize
  rw [filterMap_steps, hpieces, List.filterMap_cons_none rfl]
  have := spread_counting_le rest
  omega

end GemCourier.Path
