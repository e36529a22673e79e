/-
GemCourier/Proofs/Host/Adding.lean

Steps that only add to the transcript.

A step could look at the transcript, but what the program does depends on the disk
alone.  `step.Adds allowed` says so: from every disk the step comes to one answer and
one disk, adds the same events to whatever the transcript holds, and the requests
among them are allowed.  Two runs that reach one disk with different transcripts
therefore go on alike.

The rules follow the way steps are put together.  They are applied here to making
sure of directories and to programs that are started.

Main results: `Adds.bind`, `Directory.adds_ensure`, `Program.adds_run`.
-/
import GemCourier.Host.Directory
import GemCourier.Host.Program

namespace GemCourier

namespace Act

variable {α β : Type} {allowed wider : Request → Prop}

/-- From every disk the step comes to one answer and one disk, and adds the same events to
whatever the transcript holds; the requests among them are allowed. -/
def Adds (step : Act α) (allowed : Request → Prop) : Prop :=
  ∀ d, ∃ a d' events, (∀ r, .requested r ∈ events → allowed r) ∧
    ∀ transcript, step ⟨d, transcript⟩ = (a, ⟨d', transcript ++ events⟩)

namespace Adds

theorem mono {step : Act α} (hstep : step.Adds allowed) (hwider : ∀ r, allowed r → wider r) :
    step.Adds wider := by
  intro d
  obtain ⟨a, d', events, hallowed, hrun⟩ := hstep d
  exact ⟨a, d', events, fun r hr => hwider r (hallowed r hr), hrun⟩

theorem pure (a : α) : (Pure.pure a : Act α).Adds allowed := by
  intro d
  refine ⟨a, d, [], by simp, fun transcript => ?_⟩
  rw [List.append_nil]
  rfl

theorem bind {step : Act α} {next : α → Act β} (hstep : step.Adds allowed)
    (hnext : ∀ a, (next a).Adds allowed) : (step >>= next).Adds allowed := by
  intro d
  obtain ⟨a, d', events, hevents, hrun⟩ := hstep d
  obtain ⟨b, d'', more, hmore, hrun'⟩ := hnext a d'
  refine ⟨b, d'', events ++ more, fun r hr => ?_, fun transcript => ?_⟩
  · exact (List.mem_append.1 hr).elim (hevents r) (hmore r)
  · show next (step ⟨d, transcript⟩).1 (step ⟨d, transcript⟩).2 = _
    rw [hrun, hrun', List.append_assoc]

theorem seqRight {step : Act α} {next : Act β} (hstep : step.Adds allowed)
    (hnext : next.Adds allowed) : (step *> next).Adds allowed :=
  hstep.bind fun _ => hnext

theorem disk : Act.disk.Adds allowed := by
  intro d
  refine ⟨d, d, [], by simp, fun transcript => ?_⟩
  rw [List.append_nil]
  rfl

theorem setDisk (d' : Disk) : (Act.setDisk d').Adds allowed := by
  intro d
  refine ⟨(), d', [], by simp, fun transcript => ?_⟩
  rw [List.append_nil]
  rfl

theorem record {e : Event} (he : ∀ r, .requested r = e → allowed r) :
    (Act.record e).Adds allowed := by
  intro d
  exact ⟨(), d, [e], by simpa using he, fun transcript => rfl⟩

theorem print (line : Console.Line) : (Act.print line).Adds allowed :=
  record (by simp)

theorem note (level : Level) (text : String) : (Act.note level text).Adds allowed :=
  record (by simp)

theorem change (f : Disk → Except Fault Disk) : (Act.change f).Adds allowed := by
  refine .bind .disk fun d => ?_
  split
  · exact .bind (.setDisk _) fun _ => .pure _
  · exact .pure _

theorem forM {γ : Type} {step : γ → Act Unit} {items : List γ}
    (hstep : ∀ a ∈ items, (step a).Adds allowed) : (items.forM step : Act PUnit).Adds allowed := by
  induction items with
  | nil => exact .pure _
  | cons a rest ih =>
    exact .bind (hstep a (by simp)) fun _ => ih fun b hb => hstep b (by simp [hb])

/-- All lines are printed. -/
theorem printAll (lines : List Console.Line) : (lines.forM Act.print : Act PUnit).Adds allowed :=
  forM fun line _ => .print line

end Adds

end Act

/-! ### Directories -/

namespace Directory

variable {allowed : Request → Prop}

theorem adds_create (path : Path) : (create path).Adds allowed := by
  refine .bind (.change _) fun answer => ?_
  cases answer with
  | ok _ => exact .bind (.note _ _) fun _ => .pure _
  | error fault => exact .pure _

theorem adds_ensureOne (path : Path) : (ensureOne path).Adds allowed := by
  refine .bind .disk fun d => ?_
  split
  · exact .pure _
  · exact .pure _
  · exact .bind (adds_create path) fun _ => .pure _
  · exact .pure _

theorem adds_ensureFrom (part : Path) (made : Nat) (cs : List Component) :
    (ensureFrom part made cs).Adds allowed := by
  induction cs generalizing part made with
  | nil => exact .pure _
  | cons c rest ih =>
    rw [ensureFrom]
    split
    · exact ih _ _
    · refine .bind (adds_ensureOne _) fun answer => ?_
      cases answer with
      | ok n => exact ih _ _
      | error e => exact .pure _

theorem adds_ensure (path : Path) : (ensure path).Adds allowed :=
  adds_ensureFrom _ _ _

theorem adds_ensureParent (path : Path) : (ensureParent path).Adds allowed := by
  unfold ensureParent
  split
  · exact .pure _
  · exact .bind (adds_ensure _) fun _ => .pure _

theorem adds_clearAway (path : Path) : (clearAway path).Adds allowed := by
  refine .bind .disk fun d => ?_
  split
  · exact .bind (.note _ _) fun _ => .pure _
  · split
    · exact .bind (.setDisk _) fun _ => .bind (.note _ _) fun _ => .pure _
    · exact .bind (.setDisk _) fun _ => .bind (.note _ _) fun _ => .pure _

end Directory

/-! ### Scripts and programs -/

namespace Shell.Session

variable {allowed : Request → Prop}

theorem adds_openFile (direction : Direction) (path : Path) :
    (openFile direction path).Adds allowed := by
  unfold openFile
  split
  · exact .change _
  · refine .bind .disk fun d => ?_
    split
    · exact .pure _
    · exact .change _
  · exact .bind .disk fun d => .pure _

theorem adds_openAll (s : Session) (line : Nat) (sinks : Sinks) (redirections : List Redirection) :
    (s.openAll line sinks redirections).Adds allowed := by
  induction redirections generalizing sinks with
  | nil => exact .pure _
  | cons r rest ih =>
    rw [openAll]
    split
    · exact ih _
    · refine .bind (adds_openFile _ _) fun answer => ?_
      cases answer with
      | error fault => exact .pure _
      | ok _ => exact ih _

theorem adds_send (s : Session) (sink : Sink) (bytes : List UInt8) :
    (s.send sink bytes).Adds allowed := by
  unfold send
  split
  · exact .pure _
  · exact .pure _
  · refine .bind .disk fun d => ?_
    split
    · exact .pure _
    · exact .bind (.change _) fun _ => .pure _

theorem adds_runOne (s : Session) (c : Command) : (s.runOne c).Adds allowed := by
  refine .bind (adds_openAll _ _ _ _) fun answer => ?_
  cases answer with
  | error complaint => exact .pure _
  | ok sinks =>
    refine .bind .disk fun d => ?_
    split
    · exact .pure _
    · exact .pure _
    · exact .bind (adds_send _ _ _) fun s => .bind (adds_send _ _ _) fun s => .pure _

theorem adds_runAll (s : Session) (commands : List Command) : (s.runAll commands).Adds allowed := by
  induction commands generalizing s with
  | nil => exact .pure _
  | cons c rest ih =>
    rw [runAll]
    split
    · refine .bind (adds_runOne s c) fun answer => ?_
      cases answer with
      | error ending => exact .pure _
      | ok s => exact ih s
    · exact ih s

end Shell.Session

/-- A program that is started sends nothing. -/
theorem Program.adds_run {allowed : Request → Prop} (searchPath : List Path) (program : Path)
    (arguments : List String) : (run searchPath program arguments).Adds allowed := by
  unfold run
  split
  · exact .pure _
  · refine .bind .disk fun d => ?_
    split
    · exact .pure _
    · exact .bind (Shell.Session.adds_runAll _ _) fun _ => .pure _

end GemCourier
