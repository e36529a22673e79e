/-
GemCourier/Proofs/Commands/Notice.lean

The look for a newer release does not influence a command.

A run reads the project file, looks for a newer release and carries out its command.
The look leaves the disk as it is and adds one request and at most three lines to the
transcript.  No other request goes to the address it asks, so a command is the same
step on all networks that differ there only; and a command does not see what was said
before it.  So there is one course of the command for all answers that the address
may give, and for the run without the look.

Main results: `pointOutUpdate_adds`, `perform_congr`, `run_beside_notice`.
-/
import GemCourier.Proofs.Commands.Adding
import GemCourier.Proofs.Commands.Assets

namespace GemCourier

open Remote

/-! ### Networks that differ about the latest release -/

/-- The address that is asked for the latest release. -/
def releaseUrl : String :=
  (Release.remote none).latestReleaseUrl

theorem no_query_releaseUrl : '?' ∉ releaseUrl.toList := by
  decide +kernel

/-- The networks give the same answers but for the latest release. -/
def Remote.Network.AgreesOn (network other : Network) (urls : String → Prop) : Prop :=
  ∀ url, urls url → other.answer url = network.answer url

/-- A network on which one address has another answer. -/
def Remote.Network.replace (network : Network) (url : String) (answer : Answer) : Network :=
  { network with answers := (url, answer) :: network.answers }

theorem Remote.Network.answer_replace (network : Network) (url : String) (answer : Answer) :
    (network.replace url answer).answer url = answer := by
  simp [replace, Network.answer]

theorem Remote.Network.agreesOn_replace (network : Network) (url : String) (answer : Answer) :
    network.AgreesOn (network.replace url answer) (· ≠ url) := by
  intro other hother
  have hkey : (other == url) = false := by simpa using hother
  rw [replace, Network.answer, Network.answer, List.lookup_cons, hkey]

namespace Commands

open CommandLine

variable {s : Surroundings} {network : Network}

/-! ### The notice -/

/-- The lines that point out a newer release. -/
def noticeLines (latest : String) : List Console.Line :=
  [.plain s!"New version available: {latest} (current: {Version.current})",
    .plain "To update, run: picogem update", .blank]

/-- What is pointed out about the latest release. -/
def notice (s : Surroundings) : List Console.Line :=
  match ((Release.remote s.token).latestRelease s.network).outcome with
  | .ok latest => if Version.isNewer latest Version.current then noticeLines latest else []
  | .error _ => []

/-- What is asked to find out the latest release. -/
def lookUps (s : Surroundings) : List Request :=
  if badHeader? s.lookUp = none then [sentRequest s.lookUp] else []

theorem notice_of_latest {latest : String} (hlatest : s.Latest latest)
    (hnewer : Version.isNewer latest Version.current = true) : notice s = noticeLines latest := by
  rw [Surroundings.Latest] at hlatest
  rw [notice, hlatest]
  exact if_pos hnewer

theorem notice_of_broken {reason : String} (h : s.network.answer releaseUrl = .broken reason) :
    notice s = [] := by
  have hnone : ∀ latest, ¬ s.Latest latest := by
    intro latest hlatest
    obtain ⟨-, tag, ⟨body, json, hanswer, -⟩, -⟩ := Surroundings.latest_iff_tagged.1 hlatest
    cases h.symm.trans hanswer
  rw [notice]
  split
  · next latest hlatest => exact absurd hlatest (hnone latest)
  · rfl

/-- Looking for a newer release leaves the disk alone, prints the notice and sends the look-up. -/
theorem pointOutUpdate_adds (s : Surroundings) (h : Host) :
    ((pointOutUpdate s).after h).disk = h.disk ∧
      ((pointOutUpdate s).after h).printed = h.printed ++ notice s ∧
      ((pointOutUpdate s).after h).requests = h.requests ++ lookUps s := by
  let asked := (Remote.perform ((Release.remote s.token).latestRelease s.network)).after h
  have hasked : asked.disk = h.disk ∧ asked.printed = h.printed ∧
      asked.requests = h.requests ++ lookUps s := by
    refine ⟨disk_after_perform h, printed_after_perform _ h, ?_⟩
    rw [requests_after_perform, GitHub.requests_latestRelease, Network.requested_send]
    rfl
  -- nothing is printed where no version is newer, and there is a note in its place
  have hnoted : ∀ text, ((Act.note .debug text).after asked).disk = h.disk ∧
      ((Act.note .debug text).after asked).printed = h.printed ++ [] ∧
      ((Act.note .debug text).after asked).requests = h.requests ++ lookUps s := by
    intro text
    rw [Act.disk_after_note, Act.aloof_printed.note, Act.aloof_requests.note, List.append_nil]
    exact hasked
  simp only [pointOutUpdate, Release.newer?, notice, Act.after_bind, Act.answer_bind,
    answer_perform]
  cases ((Release.remote s.token).latestRelease s.network).outcome with
  | error e => exact hnoted _
  | ok latest =>
    cases hnewer : Version.isNewer latest Version.current with
    | false =>
      simp only [hnewer, Bool.false_eq_true, if_false]
      exact hnoted _
    | true =>
      simp only [hnewer, if_true]
      refine ⟨hasked.1, ?_, ?_⟩
      · rw [← hasked.2.1]
        show (asked.transcript ++ _ ++ _ ++ _).filterMap Event.line? = _
        simp [Host.printed, noticeLines, Event.line?]
      · rw [← hasked.2.2]
        show (asked.transcript ++ _ ++ _ ++ _).filterMap Event.request? = _
        simp [Host.requests, Event.request?]

/-! ### Commands on networks that differ about the latest release -/

theorem installInto_congr {tree other : RemoteTree} (h : other.toSource = tree.toSource) :
    installInto { s with network := network } other = installInto s tree := by
  have hgem : installGem other = installGem tree := by
    funext source destination
    rw [installGem, installGem, RemoteTree.download_congr h]
  funext source outputDir package compile
  rw [installInto, installInto, installCompiled, installCompiled, hgem]

theorem gemNames_congr {tree other : RemoteTree} (h : other.toSource = tree.toSource) :
    gemNames other = gemNames tree := by
  funext gemsDir
  rw [gemNames, gemNames, h]

/-- A command other than the update is the same step on networks that differ about the latest
release only. -/
theorem perform_congr (p : Project) {command : Command} (hcommand : command.isUpdate = false)
    (hnetwork : s.network.AgreesOn network (· ≠ releaseUrl)) :
    perform { s with network := network } p command = perform s p command := by
  have htree : ∀ g : GitHub, (g.tree network).toSource = (g.tree s.network).toSource :=
    fun g => GitHub.tree_toSource_eq (r := Release.remote none) no_query_releaseUrl hnetwork
  cases command with
  | add package flags output compile =>
    have hadd : add { s with network := network } p package flags output compile =
        add s p package flags output compile := by
      simp only [add, installInto_congr (htree _)]
    rw [perform, perform, hadd]
  | list flags =>
    have hlist : list { s with network := network } p flags = list s p flags := by
      simp only [list, gemNames_congr (htree _)]
    rw [perform, perform, hlist]
  | sync storage watch interval => rfl
  | update check => cases hcommand

theorem sends_remoteTree (s : Surroundings) (p : Project) (flags : RemoteFlags) :
    (remoteTree s p flags).toSource.Sends fun r => r.url ≠ releaseUrl :=
  GitHub.sends_tree (r := Release.remote none) no_query_releaseUrl s.network

/-! ### Runs -/

/-- What a run does when the project file is read and the look for a newer release is over. -/
def carryOut (s : Surroundings) (i : Invocation) (file : ProjectFile) :
    Act (Except SessionError (Option Watched)) := do
  Act.note .debug s!"Running command '{i.command.name}'"
  perform s ⟨i.root, file⟩ i.command

theorem readIn_keeps {γ : Type} {view : Host → γ} (hview : Act.Aloof view) (root : Path) :
    (ProjectFile.readIn root).Keeps view := by
  have hnotes : ∀ notes : List String,
      (notes.forM (Act.note .debug) : Act PUnit).Keeps view := by
    intro notes
    induction notes with
    | nil => exact .pure _
    | cons text rest ih => exact .bind (hview.note _ _) fun _ => ih
  refine .bind .disk fun d => ?_
  split
  · refine .bind .disk fun d => .bind (hview.note _ _) fun _ => ?_
    split
    · exact .pure _
    · split
      · exact .pure _
      · exact .bind (hnotes _) fun _ => .pure _
  · exact .bind (hview.note _ _) fun _ => .pure _

/-- Without a project file nothing is looked for, and no command is carried out. -/
theorem run_of_error {i : Invocation} {h : Host} {e : ProjectFileError}
    (hread : (ProjectFile.readIn i.root).answer h = .error e) :
    (run s i).answer h = .error (.config e) ∧
      ((run s i).after h).disk = ((ProjectFile.readIn i.root).after h).disk ∧
      ((run s i).after h).printed = h.printed ∧ ((run s i).after h).requests = h.requests := by
  have hafter : (run s i).after h = (ProjectFile.readIn i.root).after h := by
    simp only [run, Act.after_bind, hread]
    rfl
  rw [hafter]
  refine ⟨?_, rfl, readIn_keeps Act.aloof_printed _ h, readIn_keeps Act.aloof_requests _ h⟩
  simp only [run, Act.answer_bind, hread]
  rfl

/-- The host on which a run carries out its command. -/
def beforeCommand (s : Surroundings) (i : Invocation) (file : ProjectFile) (h : Host) : Host :=
  let read := (Act.note .debug s!"Loaded config: {file.shown}").after
    ((ProjectFile.readIn i.root).after h)
  if looksForUpdate i then (pointOutUpdate s).after read else read

theorem run_of_ok {i : Invocation} {h : Host} {file : ProjectFile}
    (hread : (ProjectFile.readIn i.root).answer h = .ok file) :
    (run s i).answer h = (carryOut s i file).answer (beforeCommand s i file h) ∧
      (run s i).after h = (carryOut s i file).after (beforeCommand s i file h) := by
  simp only [run, Act.answer_bind, Act.after_bind, hread, beforeCommand]
  cases looksForUpdate i <;> exact ⟨rfl, rfl⟩

theorem beforeCommand_adds (s : Surroundings) (i : Invocation) (file : ProjectFile) (h : Host) :
    (beforeCommand s i file h).disk = ((ProjectFile.readIn i.root).after h).disk ∧
      (beforeCommand s i file h).printed =
        h.printed ++ (if looksForUpdate i then notice s else []) ∧
      (beforeCommand s i file h).requests =
        h.requests ++ (if looksForUpdate i then lookUps s else []) := by
  let read := (Act.note .debug s!"Loaded config: {file.shown}").after
    ((ProjectFile.readIn i.root).after h)
  have hprinted : read.printed = h.printed :=
    (Act.aloof_printed.note _ _ _).trans (readIn_keeps Act.aloof_printed _ h)
  have hrequests : read.requests = h.requests :=
    (Act.aloof_requests.note _ _ _).trans (readIn_keeps Act.aloof_requests _ h)
  rw [beforeCommand]
  cases looksForUpdate i with
  | false => exact ⟨rfl, hprinted.trans (List.append_nil _).symm,
      hrequests.trans (List.append_nil _).symm⟩
  | true =>
    obtain ⟨hdisk, hlines, hsent⟩ := pointOutUpdate_adds s read
    exact ⟨hdisk, by rw [← hprinted]; exact hlines, by rw [← hrequests]; exact hsent⟩

/-- A run whose command has one course, whatever was said before it, has that course with the
notice printed in front and the look-up sent before. -/
theorem run_of_course {i : Invocation} {h : Host} {file : ProjectFile}
    {outcome : Except SessionError (Option Watched)} {disk : Disk} {events : List Event}
    (hread : (ProjectFile.readIn i.root).answer h = .ok file)
    (hcourse : ∀ transcript,
      carryOut s i file ⟨((ProjectFile.readIn i.root).after h).disk, transcript⟩ =
        (outcome, ⟨disk, transcript ++ events⟩)) :
    (run s i).answer h = outcome ∧ ((run s i).after h).disk = disk ∧
      ((run s i).after h).printed = h.printed ++
        (if looksForUpdate i then notice s else []) ++ events.filterMap Event.line? ∧
      ((run s i).after h).requests = h.requests ++
        (if looksForUpdate i then lookUps s else []) ++ events.filterMap Event.request? := by
  obtain ⟨hanswer, hafter⟩ := run_of_ok (s := s) hread
  obtain ⟨hdisk, hprinted, hrequests⟩ := beforeCommand_adds s i file h
  have hend := hcourse (beforeCommand s i file h).transcript
  rw [← hdisk] at hend
  rw [hanswer, hafter]
  refine ⟨congrArg Prod.fst hend, congrArg (·.2.disk) hend, ?_, ?_⟩
  · refine (congrArg (·.2.printed) hend).trans ?_
    rw [← hprinted]
    exact List.filterMap_append
  · refine (congrArg (·.2.requests) hend).trans ?_
    rw [← hrequests]
    exact List.filterMap_append

/-- Whether a run comes to look for a newer release. -/
def looks (i : Invocation) (h : Host) : Bool :=
  looksForUpdate i && ((ProjectFile.readIn i.root).answer h).isOk

/-- For a command other than the update there is one outcome, one disk, and one list each of
lines and of requests, none of which goes to the address of the latest release, for all networks
that differ about the latest release only.  The run that does not look for it comes to just that,
and the run that may look comes to the same with the notice printed in front and the look-up sent
before. -/
theorem run_beside_notice (s : Surroundings) (i : Invocation) (h : Host)
    (hcommand : i.command.isUpdate = false) (hcompiler : s.compiler.Discreet) :
    ∃ outcome disk lines sent, (∀ r ∈ sent, r.url ≠ releaseUrl) ∧
      ∀ network, s.network.AgreesOn network (· ≠ releaseUrl) →
        let t := { s with network := network }
        let skipped := run t { i with noUpdateCheck := true }
        let checked := run t i
        (skipped.answer h = outcome ∧ (skipped.after h).disk = disk ∧
          (skipped.after h).printed = h.printed ++ lines ∧
          (skipped.after h).requests = h.requests ++ sent) ∧
        checked.answer h = outcome ∧ (checked.after h).disk = disk ∧
          (checked.after h).printed =
            h.printed ++ (if looks i h then notice t else []) ++ lines ∧
          (checked.after h).requests =
            h.requests ++ (if looks i h then lookUps s else []) ++ sent := by
  cases hread : (ProjectFile.readIn i.root).answer h with
  | error e =>
    have hlooks : looks i h = false := by simp [looks, hread, Except.isOk, Except.toBool]
    refine ⟨.error (.config e), ((ProjectFile.readIn i.root).after h).disk, [], [], by simp,
      fun network _ => ?_⟩
    intro t skipped checked
    rw [hlooks]
    simp only [Bool.false_eq_true, if_false, List.append_nil]
    exact ⟨run_of_error (i := { i with noUpdateCheck := true }) hread, run_of_error hread⟩
  | ok file =>
    have hadds : (carryOut s i file).Adds fun r => r.url ≠ releaseUrl :=
      .bind (.note _ _) fun _ => adds_perform hcompiler (sends_remoteTree s _) hcommand
    obtain ⟨outcome, disk, events, hevents, hcourse⟩ :=
      hadds ((ProjectFile.readIn i.root).after h).disk
    have hlooks : looks i h = looksForUpdate i := by simp [looks, hread, Except.isOk, Except.toBool]
    refine ⟨outcome, disk, events.filterMap Event.line?, events.filterMap Event.request?, ?_,
      fun network hnetwork => ?_⟩
    · intro r hr
      obtain ⟨e, he, hrequest⟩ := List.mem_filterMap.1 hr
      cases e <;> cases hrequest
      exact hevents r he
    intro t skipped checked
    -- both runs carry out one command, on hosts that differ in their transcripts only
    have hcarry : carryOut t i file = carryOut s i file := by
      rw [carryOut, carryOut, perform_congr _ hcommand hnetwork]
    rw [← hcarry] at hcourse
    have hskipped := run_of_course (i := { i with noUpdateCheck := true }) hread hcourse
    rw [show looksForUpdate { i with noUpdateCheck := true } = false from rfl] at hskipped
    rw [hlooks]
    exact ⟨by simpa using hskipped, run_of_course hread hcourse⟩

/-! A list of the gems, asked for where there is a newer release and where that cannot be found
out. -/

/-- The surroundings of an older executable, with a compiler that is looked for in `/bin`. -/
def equipped : Surroundings :=
  { outdated with compiler := .external [⟨"/bin"⟩] Bytecode.Compiler.usualProgram }

/-- The network of these surroundings, on which the latest release is not found out. -/
def quiet : Network :=
  equipped.network.replace releaseUrl (.broken "no such host")

/-- What the command line asks for that lists the gems. -/
def listing : Invocation :=
  ⟨.list ⟨none, none, none⟩, some .warn, ⟨"."⟩, false⟩

theorem run_beside_notice_listing :
    Invocation.parse ["picogem", "list"] = .ok listing ∧ listing.command.isUpdate = false ∧
    equipped.compiler.Discreet ∧ equipped.network.AgreesOn quiet (· ≠ releaseUrl) ∧
    (run { equipped with network := quiet } listing).answer outdatedHost =
      (run equipped listing).answer outdatedHost ∧
    ∃ lines,
      ((run equipped listing).after outdatedHost).printed = noticeLines "0.6.0" ++ lines ∧
      ((run { equipped with network := quiet } listing).after outdatedHost).printed = lines ∧
      ((run equipped { listing with noUpdateCheck := true }).after outdatedHost).printed =
        lines := by
  have hcompiler : equipped.compiler.Discreet := Bytecode.Compiler.discreet_external _ _
  have hquiet : equipped.network.AgreesOn quiet (· ≠ releaseUrl) :=
    Network.agreesOn_replace _ _ _
  have hnotice : notice equipped = noticeLines "0.6.0" :=
    notice_of_latest (s := equipped) latest_outdated newer_outdated
  have hsilent : notice { equipped with network := quiet } = [] :=
    notice_of_broken (Network.answer_replace _ _ _)
  have habsent : outdatedHost.disk.holds (Path.child ⟨"."⟩ ProjectFile.name) = false := by
    decide +kernel
  have hlooks : looks listing outdatedHost = true := by
    have hread : (ProjectFile.readIn ⟨"."⟩).answer outdatedHost = .ok .empty := by
      simp [ProjectFile.readIn, habsent]
    show (true && ((ProjectFile.readIn ⟨"."⟩).answer outdatedHost).isOk) = true
    rw [hread]
    rfl
  obtain ⟨outcome, disk, lines, sent, -, hruns⟩ :=
    run_beside_notice equipped listing outdatedHost rfl hcompiler
  obtain ⟨⟨-, -, hskipped, -⟩, hanswer, -, hprinted, -⟩ := hruns equipped.network fun _ _ => rfl
  obtain ⟨-, hanswer', -, hprinted', -⟩ := hruns quiet hquiet
  rw [hlooks, if_pos rfl] at hprinted hprinted'
  rw [hsilent] at hprinted'
  rw [show { equipped with network := equipped.network } = equipped from rfl, hnotice] at hprinted
  refine ⟨by decide +kernel, rfl, hcompiler, hquiet, hanswer'.trans hanswer.symm, lines, ?_, ?_, ?_⟩
  · simpa [Host.printed, outdatedHost] using hprinted
  · simpa [Host.printed, outdatedHost] using hprinted'
  · simpa [Host.printed, outdatedHost] using hskipped

end Commands

end GemCourier
