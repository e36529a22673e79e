/-
GemCourier/Proofs/Bytecode/Targets.lean

Where the target of each file lies.

A file has its target in the directory below the destination that its own
directory is below the workspace, under its own name with `.mrb` in place of
`.rb`.  The extension is replaced at the end of the whole path, and what is cut
off is read again as a path: of `..rb` there remains `..`, which is no name, and
nothing is put behind it.  This is the one name whose target does not lie below
the destination.

Main results: `lastComponent_renamed`, `target_spec`.
-/
import GemCourier.Proofs.Bytecode.Pairs

namespace GemCourier.Bytecode

open Disk

variable {workspace source : Path} {d : Disk} {n : String}

/-- The name under which a file is to be installed: `.rb` at its end gives way to `.mrb`. -/
inductive Renamed : String → String → Prop
  | kept {n : String} : ¬ Path.Bears n Sync.scriptExtension → Renamed n n
  | compiled {stem : String} : stem ≠ "" →
      Renamed (stem ++ "." ++ Sync.scriptExtension) (stem ++ "." ++ Sync.bytecodeExtension)

/-- The script without a stem, whose extension is not replaced. -/
def stemless : String := "." ++ "." ++ Sync.scriptExtension

theorem lastComponent_stemless : lastComponent stemless = .up :=
  (lastComponent_script (by decide)).trans (if_pos rfl)

/-- All names but one become what they are to be. -/
theorem lastComponent_renamed (hn : n ≠ stemless) : ∃ m, Renamed n m ∧ lastComponent n = .name m := by
  by_cases hbears : Path.Bears n Sync.scriptExtension
  · obtain ⟨stem, hstem, rfl⟩ := hbears
    have hup : stem ≠ "." := fun heq => hn (by rw [heq, stemless])
    exact ⟨_, .compiled hstem, (lastComponent_script hstem).trans (if_neg hup)⟩
  · exact ⟨n, .kept hbears, lastComponent_other hbears⟩

/-- **Targets.**  Every file that is found in a workspace has a target.  It lies in the same
directory below the destination as the file below the workspace, under the name that the file is
to be installed with, unless the file is a script without a stem: then it is the directory
above, and does not lie below the destination. -/
theorem target_spec (destination : Path) (hd : d.WellFormed)
    (hsource : .leaf source ∈ d.leavesBelow workspace) :
    ∃ (front : List String) (n : String) (target : Path),
      (∀ m ∈ front ++ [n], IsEntryName m) ∧
      source.components = workspace.components ++ front.map .name ++ [.name n] ∧
      target? workspace destination source = some target ∧
      ((∃ m, Renamed n m ∧ IsEntryName m ∧
          target.components = destination.components ++ front.map .name ++ [.name m]) ↔
        n ≠ stemless) ∧
      (n = stemless → target.components = destination.components ++ front.map .name ++ [.up]) ∧
      (Lies target destination ↔ n ≠ stemless) := by
  have hws := components_ne_nil_of_leaf hsource
  obtain ⟨front, n, hnames, rfl⟩ := exists_names_of_leaf hd hsource
  have hc := Path.components_descend (p := workspace) hnames
  obtain ⟨relative, hrelative, -⟩ := Path.exists_relativeTo? hws hc
  obtain ⟨-, htarget⟩ := components_targetOf destination hws hnames hc hrelative
  have hup : n = stemless →
      (targetOf destination (workspace.descend (front ++ [n])) relative).components =
        destination.components ++ front.map .name ++ [.up] := by
    rintro rfl
    rw [htarget, lastComponent_stemless]
  refine ⟨front, n, _, hnames, by rw [hc]; simp, target?_eq_some.2 ⟨relative, hrelative, rfl⟩,
    ⟨?_, fun hn => ?_⟩, hup, ⟨?_, fun hn => ?_⟩⟩
  · rintro ⟨m, -, -, hm⟩ hn
    have hlast := (List.append_inj' ((hup hn).symm.trans hm) rfl).2
    simp at hlast
  · obtain ⟨m, hrenamed, hm⟩ := lastComponent_renamed hn
    exact ⟨m, hrenamed, isEntryName_of_lastComponent (hnames n (by simp)) hm, by rw [htarget, hm]⟩
  · rintro ⟨names, hne, -, hbelow⟩ hn
    rcases List.eq_nil_or_concat names with rfl | ⟨outer, m, rfl⟩
    · exact hne rfl
    · rw [hup hn, List.concat_eq_append, List.map_append, ← List.append_assoc] at hbelow
      have hlast := (List.append_inj' hbelow rfl).2
      simp at hlast
  · obtain ⟨m, -, hm⟩ := lastComponent_renamed hn
    have hentry := isEntryName_of_lastComponent (hnames n (by simp)) hm
    refine ⟨front ++ [m], by simp, fun l hl => ?_, by rw [htarget, hm]; simp⟩
    rcases List.mem_append.1 hl with hl | hl
    · exact hnames l (by simp [hl])
    · exact List.mem_singleton.1 hl ▸ hentry

/-! ### A script without a stem -/

/-- A directory with a script without a stem and one whose stem has a dot. -/
def dottedHost : Host where
  disk := {
    nodes := [(["w"], .folder), (["w", "..rb"], .file "x".toUTF8 1 0o644),
      (["w", "v1.0.rb"], .file "y".toUTF8 1 0o644)]
    start := []
    clock := 2 }
  transcript := []

theorem leaves_dottedHost :
    dottedHost.disk.leavesBelow ⟨"/w"⟩ = [.leaf ⟨"/w/..rb"⟩, .leaf ⟨"/w/v1.0.rb"⟩] := by
  have hnames : dottedHost.disk.names ⟨"/w"⟩ = .ok ["..rb", "v1.0.rb"] :=
    names_of_entries ["w"] rfl rfl rfl (by decide)
  rw [leavesBelow_of_flat hnames (by decide +kernel)]
  decide

/-- The stem of `v1.0.rb` is `v1.0`, and its target is `/out/v1.0.mrb`; that of `..rb` is
`/out/..`. -/
theorem target_spec_dottedHost :
    dottedHost.disk.WellFormed ∧
    (Finding.leaf ⟨"/w/v1.0.rb"⟩ ∈ dottedHost.disk.leavesBelow ⟨"/w"⟩ ∧
      ∃ target, target? ⟨"/w"⟩ ⟨"/out"⟩ ⟨"/w/v1.0.rb"⟩ = some target ∧ Lies target ⟨"/out"⟩) ∧
    Finding.leaf ⟨"/w/..rb"⟩ ∈ dottedHost.disk.leavesBelow ⟨"/w"⟩ ∧
      ∃ target, target? ⟨"/w"⟩ ⟨"/out"⟩ ⟨"/w/..rb"⟩ = some target ∧ ¬ Lies target ⟨"/out"⟩ ∧
        target.components = (Path.mk "/out").components ++ [.up] := by
  have hd : dottedHost.disk.WellFormed := by decide
  have hdotted : Finding.leaf ⟨"/w/v1.0.rb"⟩ ∈ dottedHost.disk.leavesBelow ⟨"/w"⟩ := by
    simp [leaves_dottedHost]
  have hstemless : Finding.leaf ⟨"/w/..rb"⟩ ∈ dottedHost.disk.leavesBelow ⟨"/w"⟩ := by
    simp [leaves_dottedHost]
  refine ⟨hd, ⟨hdotted, ?_⟩, hstemless, ?_⟩
  · obtain ⟨front, n, target, -, hc, htarget, -, -, hlies⟩ := target_spec ⟨"/out"⟩ hd hdotted
    have hc' : (Path.mk "/w/v1.0.rb").components =
        (Path.mk "/w").components ++ [] ++ [.name "v1.0.rb"] := by decide
    obtain rfl : "v1.0.rb" = n := by simpa using (List.append_inj' (hc'.symm.trans hc) rfl).2
    exact ⟨target, htarget, hlies.2 (by decide)⟩
  · obtain ⟨front, n, target, -, hc, htarget, -, hup, hlies⟩ := target_spec ⟨"/out"⟩ hd hstemless
    have hc' : (Path.mk "/w/..rb").components =
        (Path.mk "/w").components ++ [] ++ [.name stemless] := by decide
    obtain ⟨hfront, hn⟩ := List.append_inj' (hc'.symm.trans hc) rfl
    obtain rfl : stemless = n := by simpa using hn
    obtain rfl : front = [] := by simpa using List.append_cancel_left hfront
    exact ⟨target, htarget, fun h => hlies.1 h rfl, by simpa using hup rfl⟩

end GemCourier.Bytecode
