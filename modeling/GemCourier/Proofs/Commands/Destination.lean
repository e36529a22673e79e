/-
GemCourier/Proofs/Commands/Destination.lean

Where a package is read from and where it goes.

The name of a package is used twice.  Remotely it is joined by its parts: slashes
around it are trimmed, and everything between them goes behind the directory of
the gems.  Locally it is a path that is taken from the output directory, so an
absolute one stands for itself, `..` leads upwards and what is idle is passed
over.  The two agree, and the package stays in the output directory, for exactly
the names that `components_package_iff` tells.

Main results: `components_package_iff`, `download_asks`, `add_places`.
-/
import GemCourier.Proofs.Commands.Printing
import GemCourier.Proofs.Remote.Confinement
import GemCourier.Proofs.Remote.Isolation

namespace GemCourier

/-! ### Segments -/

namespace Text

variable {sep : Char} {keep : List Char → Bool}

/-- Separators at the front of a text make empty pieces only. -/
theorem filter_pieces_dropWhile (hempty : keep [] = false) (text : List Char) :
    (pieces sep (text.dropWhile (· == sep))).filter keep = (pieces sep text).filter keep := by
  induction text with
  | nil => rfl
  | cons c rest ih =>
    by_cases hc : c = sep
    · simp [hc, pieces, hempty, ih]
    · simp [hc]

/-- Separators at the end of a text make empty pieces only. -/
theorem filter_pieces_dropEnd (hempty : keep [] = false) (text : List Char) :
    (pieces sep (text.reverse.dropWhile (· == sep)).reverse).filter keep =
      (pieces sep text).filter keep := by
  induction text using List.reverseRecOn with
  | nil => rfl
  | append_singleton front c ih =>
    by_cases hc : c = sep
    · rw [hc, pieces_append_sep]
      simp [pieces, hempty, ih]
    · simp [hc]

end Text

namespace Remote

/-- The parts of a remote path that are neither empty nor a `.`. -/
def segments (path : String) : List String :=
  (parts path).filter fun part => !Path.isIdle part

theorem segments_eq_filter_pieces (path : String) :
    segments path = (Path.mk path).pieces.filter fun piece => !Path.isIdle piece := by
  have hempty : (fun chars => !Path.isIdle (String.ofList chars)) [] = false := by decide
  have htrimmed : ((Text.pieces '/' (trimSlashes path).toList).map String.ofList).filter
      (fun piece => !Path.isIdle piece) =
        (Path.mk path).pieces.filter fun piece => !Path.isIdle piece := by
    rw [trimSlashes, Text.trim, String.toList_ofList, Text.trimmed, Path.pieces, Text.split,
      List.filter_map, List.filter_map]
    congr 1
    exact (Text.filter_pieces_dropEnd hempty _).trans (Text.filter_pieces_dropWhile hempty _)
  rw [segments, parts, ← htrimmed]
  split
  · next hnone =>
    rw [hnone]
    decide
  · rfl

end Remote

/-! ### Taking a package from a directory -/

namespace Path

variable {p q : Path}

/-- Pieces stand for the names they spell unless one of them leads upwards. -/
theorem filterMap_ofPiece?_iff (ps : List String) :
    ps.filterMap Component.ofPiece? = (ps.filter fun piece => !isIdle piece).map .name ↔
      .up ∉ ps.filterMap Component.ofPiece? := by
  constructor
  · intro h hup
    rw [h] at hup
    simp at hup
  · intro hup
    induction ps with
    | nil => rfl
    | cons piece rest ih =>
      cases hpiece : Component.ofPiece? piece with
      | none =>
        rw [List.filterMap_cons_none hpiece] at hup ⊢
        rw [ih hup, List.filter_cons_of_neg (by simp [isIdle_iff, hpiece])]
      | some c =>
        rw [List.filterMap_cons_some hpiece, List.mem_cons, not_or] at hup
        obtain ⟨hroot, hhere, htext⟩ := Component.ofPiece?_eq_some hpiece
        rw [List.filterMap_cons_some hpiece, ih hup.2,
          List.filter_cons_of_pos (by simp [Bool.eq_false_iff, isIdle_iff, hpiece]), List.map_cons]
        cases c with
        | root => exact absurd rfl hroot
        | here => exact absurd rfl hhere
        | up => exact absurd rfl hup.1
        | name n => rw [show n = piece from htext]

/-- The components of a path are those of its pieces, behind the root of an absolute path or the
`.` that a relative path opens with. -/
theorem exists_components_eq_pieces (q : Path) :
    ∃ front, q.components = front ++ q.pieces.filterMap Component.ofPiece? ∧
      (front = [.root] ∧ q.isAbsolute = true ∨ front = [.here] ∧ q.isAbsolute = false ∨
        front = [] ∧ q.isAbsolute = false) := by
  rw [← filterMap_steps]
  exact q.exists_components_eq_steps

theorem not_mem_filterMap_ofPiece? (ps : List String) :
    .root ∉ ps.filterMap Component.ofPiece? ∧ .here ∉ ps.filterMap Component.ofPiece? := by
  constructor <;> intro hmem <;> obtain ⟨piece, -, hpiece⟩ := List.mem_filterMap.1 hmem
  · exact (Component.ofPiece?_eq_some hpiece).1 rfl
  · exact (Component.ofPiece?_eq_some hpiece).2.1 rfl

theorem length_filterMap_ofPiece? (ps : List String) :
    (ps.filterMap Component.ofPiece?).length = (ps.filter fun piece => !isIdle piece).length := by
  rw [List.length_filterMap_eq_countP, ← List.countP_eq_length_filter]
  refine List.countP_congr fun piece _ => ?_
  rw [Bool.not_eq_true', Bool.eq_false_iff, ne_eq, isIdle_iff, Option.isSome_iff_ne_none]

/-- What any path taken from another one is made of. -/
theorem components_join_eq (p q : Path) : (p.join q).components =
    if q.isAbsolute ∨ p.text = "" then q.components
    else p.components ++ q.components.filter (· ≠ .here) := by
  by_cases habsolute : q.isAbsolute = true
  · rw [join, if_pos habsolute, if_pos (Or.inl habsolute)]
  · have hrelative : q.isAbsolute = false := by simpa using habsolute
    by_cases hp : p.text = ""
    · rw [if_pos (Or.inr hp), join, if_neg habsolute, if_pos (Or.inl hp), hp, String.empty_append]
    · rw [if_neg (by simp [habsolute, hp]), components_join_pieces hp hrelative]
      obtain ⟨front, hcomponents, hfront⟩ := q.exists_components_eq_pieces
      have hkept : (q.pieces.filterMap Component.ofPiece?).filter (· ≠ .here) =
          q.pieces.filterMap Component.ofPiece? := by
        refine List.filter_eq_self.2 fun c hc => decide_eq_true ?_
        rintro rfl
        exact (not_mem_filterMap_ofPiece? _).2 hc
      rw [hcomponents, List.filter_append, hkept]
      rcases hfront with ⟨-, h⟩ | ⟨rfl, -⟩ | ⟨rfl, -⟩
      · exact absurd h habsolute
      · rfl
      · rfl

/-- A package goes into the directory of its segments in the output directory for exactly these
names: none of their components leads upwards, an absolute one is taken from the root, and one that
opens with a `.` not from nowhere. -/
theorem components_package_iff (outputDir : Path) (package : String) :
    (outputDir.child package).components =
        outputDir.components ++ (Remote.segments package).map .name ↔
      .up ∉ (Path.mk package).components ∧
        ((Path.mk package).isAbsolute = true → outputDir.components = [.root]) ∧
        (.here ∈ (Path.mk package).components → outputDir.text ≠ "") := by
  obtain ⟨front, hcomponents, hfront⟩ := (Path.mk package).exists_components_eq_pieces
  obtain ⟨-, hhere⟩ := not_mem_filterMap_ofPiece? (Path.mk package).pieces
  have hsegments := filterMap_ofPiece?_iff (Path.mk package).pieces
  have hlength := length_filterMap_ofPiece? (Path.mk package).pieces
  rw [← Remote.segments_eq_filter_pieces] at hsegments hlength
  rw [child, components_join_eq, hcomponents]
  generalize (Path.mk package).pieces.filterMap Component.ofPiece? = moves at *
  have hkept : moves.filter (· ≠ .here) = moves :=
    List.filter_eq_self.2 fun c hc => decide_eq_true fun e => hhere (e ▸ hc)
  have hnowhere : outputDir.text = "" → outputDir.components = [] := by
    obtain ⟨text⟩ := outputDir
    rintro rfl
    decide
  rcases hfront with ⟨rfl, habsolute⟩ | ⟨rfl, hrelative⟩ | ⟨rfl, hrelative⟩
  · -- an absolute package is as long as its segments behind the root
    rw [if_pos (Or.inl habsolute)]
    simp only [List.cons_append, List.nil_append, List.mem_cons, reduceCtorEq, false_or, habsolute,
      true_imp_iff, hhere, false_imp_iff, and_true, ← hsegments]
    constructor
    · intro heq
      obtain ⟨houter, hmoves⟩ :=
        List.append_inj' (show [.root] ++ moves = _ from heq) (by simp [hlength])
      exact ⟨hmoves, houter.symm⟩
    · rintro ⟨hmoves, houter⟩
      rw [houter, ← hmoves]
      rfl
  · by_cases hempty : outputDir.text = ""
    · -- a `.` that opens the whole path is a component
      rw [if_pos (Or.inr hempty), hnowhere hempty]
      constructor
      · intro heq
        have hmem : Component.here ∈ (Remote.segments package).map .name := by
          rw [← List.nil_append ((Remote.segments package).map _), ← heq]
          simp
        simp at hmem
      · exact fun h => absurd hempty (h.2.2 (by simp))
    · rw [if_neg (by simp [hrelative, hempty]), List.append_right_inj, List.filter_append, hkept]
      simp [hsegments, hrelative, hempty]
  · by_cases hempty : outputDir.text = ""
    · rw [if_pos (Or.inr hempty), hnowhere hempty, List.nil_append, List.nil_append, hsegments]
      simp [hrelative, hhere]
    · rw [if_neg (by simp [hrelative, hempty]), List.append_right_inj, List.nil_append, hkept,
        hsegments]
      simp [hrelative, hhere]

end Path

/-! ### What is asked for -/

namespace Remote.Source

variable {source : Source} {folder : String} {place : Path} {entries : List Entry}
  {visits : List Visit}

/-- The question is about what lies behind plain names in a directory. -/
def Behind (folder : String) (q : Question) : Prop :=
  ∃ names, names ≠ [] ∧ (∀ n ∈ names, isPlainName n = true) ∧ q.path = descend folder names

theorem behind_self {e : Entry} {fate : Fate} {q : Question} (hname : isPlainName e.name = true)
    (hq : (⟨folder, place, e, fate⟩ : Visit).question? = some q) : Behind folder q := by
  refine ⟨[e.name], by simp, by simpa using hname, ?_⟩
  cases fate with
  | refused => cases hq
  | saved => cases hq; rfl
  | lost => cases hq; rfl
  | unlisted => cases hq; rfl
  | entered => cases hq; rfl

theorem Behind.outer {name : String} {q : Question} (hname : isPlainName name = true)
    (h : Behind (join folder name) q) : Behind folder q := by
  obtain ⟨names, -, hplain, hpath⟩ := h
  refine ⟨name :: names, by simp, fun n hn => ?_, by rw [hpath, descend_cons]⟩
  rcases List.mem_cons.1 hn with rfl | hn
  · exact hname
  · exact hplain n hn

/-- Whatever entries are listed, what is asked about them lies behind plain names. -/
theorem Round.asks (hround : source.Round folder place entries visits) :
    ∀ q ∈ visits.filterMap Visit.question?, Behind folder q := by
  -- what is asked on account of one entry, and then of the others
  have hcons : ∀ {folder : String} {v : Visit} {visits : List Visit},
      (∀ q, v.question? = some q → Behind folder q) →
      (∀ q ∈ visits.filterMap Visit.question?, Behind folder q) →
      ∀ q ∈ (v :: visits).filterMap Visit.question?, Behind folder q := by
    intro folder v visits hv hvisits q hq
    obtain ⟨w, hw, hasked⟩ := List.mem_filterMap.1 hq
    rcases List.mem_cons.1 hw with rfl | hw
    · exact hv q hasked
    · exact hvisits q (List.mem_filterMap.2 ⟨w, hw, hasked⟩)
  induction hround with
  | done => simp
  | refused _ _ ih => exact hcons (fun q hq => by cases hq) ih
  | file hname _ _ _ ih => exact hcons (fun _ => behind_self hname) ih
  | unlisted hname _ _ _ ih => exact hcons (fun _ => behind_self hname) ih
  | entered hname _ _ _ _ ihbelow ih =>
    refine hcons (fun _ => behind_self hname) fun q hq => ?_
    rw [List.filterMap_append, List.mem_append] at hq
    exact hq.elim (fun hq => (ihbelow q hq).outer hname) (ih q)

/-- A download asks for the listing of its directory, and then for nothing but what lies behind
plain names there. -/
theorem download_asks (source : Source) (folder : String) (ends : source.Ends folder)
    (root : Path) (h : Host) :
    ∃ asked, ((source.download folder ends root).after h).questions =
      h.questions ++ .list folder :: asked ∧ ∀ q ∈ asked, Behind folder q := by
  have hfirst := source.questions_after_askListing folder h
  cases hlisted : (source.list folder).outcome with
  | error cause =>
    refine ⟨[], ?_, by simp⟩
    rw [Act.after, download_unlisted hlisted ends root h]
    exact hfirst
  | ok entries =>
    obtain ⟨others, htours, hstep⟩ := download_listed hlisted ends root h
    obtain ⟨visits, htour, -, hquestions⟩ := htours ((source.askListing folder).after h)
    refine ⟨visits.filterMap Visit.question?, ?_, htour.round.asks⟩
    rw [Act.after, hstep]
    show (others.after _).questions = _
    rw [hquestions, hfirst, List.append_assoc]
    rfl

end Remote.Source

/-! ### The command -/

/-- What stays within a directory below another one stays within that one. -/
theorem Deed.Within.outer {outer root : Path} {names : List String} {deed : Deed}
    (hroot : root.components = outer.components ++ names.map .name) (h : deed.Within root) :
    deed.Within outer := by
  cases deed with
  | made p =>
    rcases h with hpart | ⟨more, hmore⟩
    · exact Deed.within_made names (hroot ▸ hpart)
    · exact Or.inr ⟨names ++ more, by rw [hmore, hroot, List.append_assoc, List.map_append]⟩
  | wrote p bytes =>
    obtain ⟨more, hne, hmore⟩ := h
    exact ⟨names ++ more, by simp [hne], by rw [hmore, hroot, List.append_assoc, List.map_append]⟩

namespace Commands

open Remote

/-- Adding a package as it is asks for the listing of one remote directory, whose parts are those
of the directory of the gems and then those of the package, and for nothing else but what lies
behind plain names there.  Everything it does to the disk stays within one local directory.  This
is the output directory followed by the segments of the package, and then nothing leaves the output
directory, for exactly the packages without a `..` that are relative, or absolute with the root as
output directory, and do not open with a `.` where the output directory is empty.  Another absolute
package stands for itself, and a `..` leads upwards in the local directory. -/
theorem add_places (s : Surroundings) (p : Project) (package : String)
    (flags : CommandLine.RemoteFlags) (output : Option Path) (h : Host) :
    let gemsDir := (p.remoteSettings flags).gemsDir
    let outputDir := p.outputDir output
    let destination := outputDir.child package
    let after := (add s p package flags output false).after h
    (∃ asked, after.questions = h.questions ++ .list (join gemsDir package) :: asked ∧
      ∀ q ∈ asked, Source.Behind (join gemsDir package) q) ∧
    parts (join gemsDir package) = parts gemsDir ++ parts package ∧
    (∃ deeds, h.disk.Does deeds after.disk ∧ (∀ deed ∈ deeds, deed.Within destination) ∧
      (destination.components = outputDir.components ++ (segments package).map .name →
        ∀ deed ∈ deeds, deed.Within outputDir)) ∧
    (destination.components = outputDir.components ++ (segments package).map .name ↔
      .up ∉ (Path.mk package).components ∧
        ((Path.mk package).isAbsolute = true → outputDir.components = [.root]) ∧
        (.here ∈ (Path.mk package).components → outputDir.text ≠ "")) ∧
    destination.components =
      if (Path.mk package).isAbsolute ∨ outputDir.text = "" then (Path.mk package).components
      else outputDir.components ++ (Path.mk package).components.filter (· ≠ .here) := by
  intro gemsDir outputDir destination after
  obtain ⟨told, htold, hquestions, hdisk, hasked⟩ := add_eq s p package flags output h
  let tree := remoteTree s p flags
  have hends := tree.ends (join gemsDir package)
  obtain ⟨asked, hall, hbehind⟩ :=
    Source.download_asks tree.toSource (join gemsDir package) hends destination told
  have hdoes : (tree.toSource.download (join gemsDir package) hends destination).Does
      (Deed.Within destination) := Source.does_download _ _ _
  obtain ⟨deeds, hdeeds, hwithin⟩ := hdoes told
  refine ⟨⟨asked, ?_, hbehind⟩, parts_join_parts gemsDir package,
    ⟨deeds, ?_, hwithin, fun hroot deed hdeed => (hwithin deed hdeed).outer hroot⟩,
    Path.components_package_iff outputDir package, Path.components_join_eq outputDir ⟨package⟩⟩
  · rw [← hquestions]
    exact hasked.trans hall
  · rw [← htold]
    exact hdisk ▸ hdeeds

/-- Remotely the slash in front is no part of the package, locally it is the root. -/
example : parts (join "runtime_gems" "/evil") = ["runtime_gems", "evil"] ∧
    (Path.child ⟨"./lib"⟩ "/evil").components = [.root, .name "evil"] := by
  decide +kernel

end Commands

end GemCourier
