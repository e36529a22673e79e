/-
GemCourier/Proofs/Bytecode/Pairs.lean

Which files of a workspace have the same target.

A script and the bytecode beside it, `a.rb` and `a.mrb`, have one target, and no
other two files of a workspace have: replacing the extension takes the names of
scripts to those of bytecode one by one, and all other names stay as they are.
The odd one out is `..rb`, which has a target of its own, the directory above.
The bytecode of a pair is found first, since its name comes first.

Main results: `lastComponent_eq_iff`, `target_same_iff`, `Pair.not_before`.
-/
import GemCourier.Proofs.Bytecode.Installing

namespace GemCourier.Bytecode

open Disk

variable {workspace destination source other target : Path} {d : Disk}

/-! ### Pairs -/

/-- The names of a script and of its bytecode. -/
def PairNames (n m : String) : Prop :=
  ∃ stem, stem ≠ "" ∧ stem ≠ "." ∧ n = stem ++ "." ++ Sync.scriptExtension ∧
    m = stem ++ "." ++ Sync.bytecodeExtension

theorem not_bears_bytecode (stem : String) :
    ¬ Path.Bears (stem ++ "." ++ Sync.bytecodeExtension) Sync.scriptExtension := by
  rintro ⟨other, _, heq⟩
  have hlast := congrArg (fun text => text.toList.reverse.take 3) heq
  revert hlast
  simp [Sync.bytecodeExtension, Sync.scriptExtension]

/-- The name of the bytecode comes first. -/
theorem PairNames.lt {n m : String} (h : PairNames n m) : m < n := by
  obtain ⟨stem, -, -, rfl, rfl⟩ := h
  rw [String.lt_iff_toList_lt, String.toList_append, String.toList_append (s := stem ++ ".")]
  exact List.append_left_lt (by decide)

/-- The name of a script and what it becomes. -/
theorem pairNames_of_bears {n m : String} (hn : Path.Bears n Sync.scriptExtension)
    (hm : lastComponent n = .name m) : PairNames n m := by
  obtain ⟨stem, hstem, rfl⟩ := hn
  rw [lastComponent_script hstem] at hm
  split at hm
  · cases hm
  · next hup => exact ⟨stem, hstem, hup, rfl, (Component.name.inj hm).symm⟩

/-- A script becomes what another name becomes if that is its own or that of its bytecode. -/
theorem lastComponent_script_eq_iff {stem m : String} (hstem : stem ≠ "") :
    lastComponent (stem ++ "." ++ Sync.scriptExtension) = lastComponent m ↔
      stem ++ "." ++ Sync.scriptExtension = m ∨
        PairNames (stem ++ "." ++ Sync.scriptExtension) m := by
  have hpair : PairNames (stem ++ "." ++ Sync.scriptExtension) m ↔
      stem ≠ "." ∧ m = stem ++ "." ++ Sync.bytecodeExtension := by
    constructor
    · rintro ⟨stem', _, hup, heq, rfl⟩
      obtain rfl : stem = stem' := by simpa using heq
      exact ⟨hup, rfl⟩
    · rintro ⟨hup, rfl⟩
      exact ⟨stem, hstem, hup, rfl, rfl⟩
  rw [hpair, lastComponent_script hstem]
  by_cases hm : Path.Bears m Sync.scriptExtension
  · obtain ⟨stem', hstem', rfl⟩ := hm
    have hother : stem' ++ "." ++ Sync.scriptExtension ≠ stem ++ "." ++ Sync.bytecodeExtension :=
      fun heq => not_bears_bytecode stem ⟨stem', hstem', heq.symm⟩
    have hsame : ∀ extension : String,
        stem ++ "." ++ extension = stem' ++ "." ++ extension ↔ stem = stem' := by simp
    rw [lastComponent_script hstem', hsame]
    by_cases hup : stem = "."
    · by_cases hup' : stem' = "."
      · simp [hup, hup']
      · have hne : stem ≠ stem' := fun heq => hup' (heq ▸ hup)
        rw [if_pos hup, if_neg hup']
        exact iff_of_false (by simp) (not_or.2 ⟨hne, fun hpair => hpair.1 hup⟩)
    · by_cases hup' : stem' = "."
      · have hne : stem ≠ stem' := fun heq => hup (heq ▸ hup')
        rw [if_neg hup, if_pos hup']
        simp [hother, hne]
      · rw [if_neg hup, if_neg hup', Component.name.injEq, hsame]
        simp [hother]
  · have hother : stem ++ "." ++ Sync.scriptExtension ≠ m := by
      rintro rfl
      exact hm ⟨stem, hstem, rfl⟩
    rw [lastComponent_other hm]
    by_cases hup : stem = "."
    · rw [if_pos hup]
      exact iff_of_false (by simp) (not_or.2 ⟨hother, fun hpair => hpair.1 hup⟩)
    · rw [if_neg hup, Component.name.injEq, eq_comm]
      simp [hup, hother]

/-- Two names become the same only if they are the same or those of a script and its bytecode. -/
theorem lastComponent_eq_iff {n m : String} :
    lastComponent n = lastComponent m ↔ n = m ∨ PairNames n m ∨ PairNames m n := by
  -- no name of bytecode is the name of a script as well
  have hleft : ∀ {n m}, PairNames n m → Path.Bears n Sync.scriptExtension := by
    rintro n m ⟨stem, hstem, _, hn, _⟩
    exact ⟨stem, hstem, hn⟩
  have hright : ∀ {n m}, PairNames n m → ¬ Path.Bears m Sync.scriptExtension := by
    rintro n m ⟨stem, _, _, _, rfl⟩
    exact not_bears_bytecode stem
  by_cases hn : Path.Bears n Sync.scriptExtension
  · have hnot : ¬ PairNames m n := fun hpair => hright hpair hn
    obtain ⟨stem, hstem, rfl⟩ := hn
    rw [lastComponent_script_eq_iff hstem]
    simp [hnot]
  · have hnot : ¬ PairNames n m := fun hpair => hn (hleft hpair)
    by_cases hm : Path.Bears m Sync.scriptExtension
    · obtain ⟨stem, hstem, rfl⟩ := hm
      rw [eq_comm, lastComponent_script_eq_iff hstem, eq_comm]
      simp [hnot]
    · have hnot' : ¬ PairNames m n := fun hpair => hm (hleft hpair)
      rw [lastComponent_other hn, lastComponent_other hm]
      simp [hnot, hnot']

/-- A script and the bytecode that lies beside it under its name. -/
def Pair (script bytecode : Path) : Prop :=
  ∃ folder n m, PairNames n m ∧ script.components = folder ++ [.name n] ∧
    bytecode.components = folder ++ [.name m]

/-- The bytecode of a pair is not compiled. -/
theorem Pair.not_script {bytecode : Path} (h : Pair other bytecode) : isScript bytecode = false := by
  obtain ⟨folder, _, _, ⟨stem, -, -, -, rfl⟩, -, hc⟩ := h
  rw [← Bool.not_eq_true, isScript, decide_eq_true_iff,
    Path.extension?_eq_some_iff hc (by decide)]
  exact not_bears_bytecode stem

/-! ### Targets of what is found -/

/-- The target of a file of the workspace. -/
def target? (workspace destination source : Path) : Option Path :=
  (source.relativeTo? workspace).map (targetOf destination source)

theorem target?_eq_some : target? workspace destination source = some target ↔
    ∃ relative, source.relativeTo? workspace = some relative ∧
      targetOf destination source relative = target :=
  Option.map_eq_some_iff

theorem exists_names_of_leaf (hd : d.WellFormed) (h : .leaf source ∈ d.leavesBelow workspace) :
    ∃ front n, (∀ m ∈ front ++ [n], IsEntryName m) ∧ source = workspace.descend (front ++ [n]) := by
  obtain ⟨names, hne, hnames, rfl⟩ := descend_of_mem_walkWithin hd h
  rcases List.eq_nil_or_concat names with rfl | ⟨front, n, rfl⟩
  · exact absurd rfl hne
  · rw [List.concat_eq_append] at hnames ⊢
    exact ⟨front, n, hnames, rfl⟩

/-- Behind a workspace a pair is told by its names. -/
theorem pair_descend_iff {front front' : List String} {n m : String}
    (hnames : ∀ l ∈ front ++ [n], IsEntryName l) (hnames' : ∀ l ∈ front' ++ [m], IsEntryName l) :
    Pair (workspace.descend (front ++ [n])) (workspace.descend (front' ++ [m])) ↔
      front = front' ∧ PairNames n m := by
  have hc := Path.components_descend (p := workspace) hnames
  have hc' := Path.components_descend (p := workspace) hnames'
  rw [List.map_append, List.map_singleton, ← List.append_assoc] at hc hc'
  constructor
  · rintro ⟨folder, n', m', hpair, hn, hm⟩
    obtain ⟨hfront, hlast⟩ := List.append_inj' (hc.symm.trans hn) rfl
    obtain ⟨hfront', hlast'⟩ := List.append_inj' (hc'.symm.trans hm) rfl
    obtain rfl : n = n' := by simpa using hlast
    obtain rfl : m = m' := by simpa using hlast'
    have hsame := List.append_cancel_left (hfront.trans hfront'.symm)
    exact ⟨(List.map_inj_right (by simp)).1 hsame, hpair⟩
  · rintro ⟨rfl, hpair⟩
    exact ⟨_, n, m, hpair, hc, hc'⟩

/-- Two files that are found in a workspace have the same target only if they are the same or a
pair. -/
theorem target_same_iff {target' : Path} (hd : d.WellFormed)
    (hsource : .leaf source ∈ d.leavesBelow workspace)
    (hother : .leaf other ∈ d.leavesBelow workspace)
    (htarget : target? workspace destination source = some target)
    (htarget' : target? workspace destination other = some target') :
    target.components = target'.components ↔
      source = other ∨ Pair source other ∨ Pair other source := by
  have hws := components_ne_nil_of_leaf hsource
  obtain ⟨front, n, hnames, rfl⟩ := exists_names_of_leaf hd hsource
  obtain ⟨front', m, hnames', rfl⟩ := exists_names_of_leaf hd hother
  obtain ⟨r, hr, rfl⟩ := target?_eq_some.1 htarget
  obtain ⟨r', hr', rfl⟩ := target?_eq_some.1 htarget'
  obtain ⟨-, hc⟩ := components_targetOf destination hws hnames (Path.components_descend hnames) hr
  obtain ⟨-, hc'⟩ :=
    components_targetOf destination hws hnames' (Path.components_descend hnames') hr'
  have hsame : workspace.descend (front ++ [n]) = workspace.descend (front' ++ [m]) ↔
      front = front' ∧ n = m := by
    constructor
    · intro heq
      obtain ⟨hfront, hlast⟩ := List.append_inj' (Path.descend_injective hnames hnames' heq) rfl
      exact ⟨hfront, by simpa using hlast⟩
    · rintro ⟨rfl, rfl⟩
      rfl
  have htargets : destination.components ++ front.map .name ++ [lastComponent n] =
      destination.components ++ front'.map .name ++ [lastComponent m] ↔
        front = front' ∧ lastComponent n = lastComponent m := by
    constructor
    · intro heq
      obtain ⟨hfront, hlast⟩ := List.append_inj' heq rfl
      have hmap := List.append_cancel_left hfront
      exact ⟨(List.map_inj_right (by simp)).1 hmap, by simpa using hlast⟩
    · rintro ⟨rfl, hlast⟩
      rw [hlast]
  rw [hc, hc', htargets, lastComponent_eq_iff, hsame, pair_descend_iff hnames hnames',
    pair_descend_iff hnames' hnames]
  constructor
  · rintro ⟨rfl, hnm | hpair | hpair⟩
    · exact Or.inl ⟨rfl, hnm⟩
    · exact Or.inr (Or.inl ⟨rfl, hpair⟩)
    · exact Or.inr (Or.inr ⟨rfl, hpair⟩)
  · rintro (⟨rfl, hnm⟩ | ⟨rfl, hpair⟩ | ⟨rfl, hpair⟩)
    · exact ⟨rfl, Or.inl hnm⟩
    · exact ⟨rfl, Or.inr (Or.inl hpair)⟩
    · exact ⟨rfl, Or.inr (Or.inr hpair)⟩

/-- The bytecode of a pair is found first. -/
theorem Pair.not_before {front front' : List String} {n m : String}
    (hnames : ∀ l ∈ front ++ [n], IsEntryName l) (hnames' : ∀ l ∈ front' ++ [m], IsEntryName l)
    (hpair : Pair (workspace.descend (front ++ [n])) (workspace.descend (front' ++ [m]))) :
    ¬ Before workspace (workspace.descend (front ++ [n])) (workspace.descend (front' ++ [m])) := by
  obtain ⟨rfl, hnm⟩ := (pair_descend_iff hnames hnames').1 hpair
  intro hbefore
  refine hbefore.asymm ⟨_, _, Path.components_descend hnames', Path.components_descend hnames, ?_⟩
  exact List.append_left_lt (List.cons_lt_cons_iff.2 (Or.inl hnm.lt))

end GemCourier.Bytecode
