/-
GemCourier/Proofs/Commands/Printing.lean

What commands say is said beside what they do.

Printing changes neither the disk nor the questions asked, so what a command
does to the two is what the download and the installation do that it is made of.

Main results: `installGem_eq`, `add_eq`.
-/
import GemCourier.Commands.Add
import GemCourier.Proofs.Remote.Entries

namespace GemCourier

namespace Act

variable {γ : Type} {view : Host → γ}

theorem print_questions (line : Console.Line) : (print line).Keeps Host.questions := by
  intro h
  show (h.transcript ++ [Event.printed line]).filterMap Event.question? = _
  rw [List.filterMap_append]
  exact List.append_nil _

theorem print_disk (line : Console.Line) : (print line).Keeps Host.disk :=
  fun _ => rfl

/-- What every line leaves alone, all of them leave alone. -/
theorem keeps_printAll (hline : ∀ line, (print line).Keeps view) (lines : List Console.Line) :
    (lines.forM print : Act PUnit).Keeps view := by
  induction lines with
  | nil => exact .pure _
  | cons line rest ih => exact .bind (hline line) fun _ => ih

end Act

namespace Commands

open Remote

/-- Downloading a gem is downloading its directory: what is shown of it comes behind. -/
theorem installGem_eq (tree : RemoteTree) (source : String) (destination : Path) (h : Host) :
    ((installGem tree source destination).after h).disk =
        ((tree.download source destination).after h).disk ∧
      ((installGem tree source destination).after h).questions =
        ((tree.download source destination).after h).questions ∧
      (installGem tree source destination).answer h =
        ((tree.download source destination).answer h).mapError (.download source) := by
  simp only [installGem, Act.answer_bind, Act.after_bind]
  cases (tree.download source destination).answer h with
  | error cause => exact ⟨rfl, rfl, rfl⟩
  | ok report =>
    refine ⟨?_, ?_, rfl⟩
    · exact Act.keeps_printAll Act.print_disk _ _
    · exact Act.keeps_printAll Act.print_questions _ _

/-- The remote tree that packages of a project are read from. -/
def remoteTree (s : Surroundings) (p : Project) (flags : CommandLine.RemoteFlags) : RemoteTree :=
  (GitHub.of (p.remoteSettings flags).repository (p.remoteSettings flags).branch s.token).tree
    s.network

/-- Adding a package as it is downloads it from its directory into its directory. -/
theorem add_eq (s : Surroundings) (p : Project) (package : String)
    (flags : CommandLine.RemoteFlags) (output : Option Path) (h : Host) :
    ∃ told : Host, told.disk = h.disk ∧ told.questions = h.questions ∧
      let step := (remoteTree s p flags).download (join (p.remoteSettings flags).gemsDir package)
        ((p.outputDir output).child package)
      ((add s p package flags output false).after h).disk = (step.after told).disk ∧
        ((add s p package flags output false).after h).questions = (step.after told).questions := by
  let settings := p.remoteSettings flags
  let source := join settings.gemsDir package
  let destination := (p.outputDir output).child package
  let lines : List Console.Line := [.header "picogem add",
    .field "Repository" settings.repository.text, .field "Branch" settings.branch,
    .field "Package" package, .field "Source" source, .field "Output" destination.text, .blank]
  let told := (lines.forM Act.print : Act PUnit).after h
  refine ⟨told, Act.keeps_printAll Act.print_disk lines h,
    Act.keeps_printAll Act.print_questions lines h, ?_⟩
  -- behind the download there is at most one more line
  have hlast : ∀ {γ : Type} {view : Host → γ}, (∀ line, (Act.print line).Keeps view) →
      view ((add s p package flags output false).after h) =
        view ((installGem (remoteTree s p flags) source destination).after told) := by
    intro γ view hline
    simp only [add, Act.after_bind]
    split
    · rfl
    · next e _ =>
      split
      · exact hline _ _
      · rfl
  obtain ⟨hdisk, hquestions, -⟩ := installGem_eq (remoteTree s p flags) source destination told
  exact ⟨(hlast Act.print_disk).trans hdisk, (hlast Act.print_questions).trans hquestions⟩

end Commands

end GemCourier
