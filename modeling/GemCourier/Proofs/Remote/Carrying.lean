/-
GemCourier/Proofs/Remote/Carrying.lean

A download as one delivery after the other.

However deep the tree that it goes through, a download changes the disk one file
at a time, in the order of its visits.  `Carries` runs along the visits alone: a
file that was fetched is delivered to its local path, and everything else leaves
the disk as it is.  What becomes of a file is what would become of it if it were
the only one on the disk that its turn finds (`alone`).

Main results: `carried_downloadEntries`, `download_carried`.
-/
import GemCourier.Proofs.Host.Delivery
import GemCourier.Proofs.Remote.Naming

namespace GemCourier.Remote

open Directory (deliver)

/-! ### One file -/

/-- What becomes of a file whose bytes were delivered, or could not be. -/
def Fate.ofDelivery (localPath : Path) : Except (DirectoryError ⊕ Fault) Unit → Fate
  | .ok () => .saved
  | .error (.inl e) => .lost (.prepareDirectory localPath e)
  | .error (.inr fault) => .lost (.writeFailed localPath fault)

/-- Saving a file is delivering it, and says how many bytes it has. -/
theorem save_eq (localPath : Path) (bytes : ByteArray) (h : Host) :
    (Source.save localPath bytes).answer h =
        (match (deliver localPath bytes).answer h with
          | .ok () => .ok bytes.size
          | .error (.inl e) => .error (.prepareDirectory localPath e)
          | .error (.inr fault) => .error (.writeFailed localPath fault)) ∧
      (Source.save localPath bytes).after h = (deliver localPath bytes).after h := by
  simp only [Source.save, deliver, Act.answer_bind, Act.after_bind]
  cases (Directory.ensureParent localPath).answer h with
  | error e => exact ⟨rfl, rfl⟩
  | ok _ =>
    simp only [Act.answer_bind, Act.after_bind]
    cases (Act.change (·.writeFile localPath bytes)).answer
      ((Directory.ensureParent localPath).after h) <;> exact ⟨rfl, rfl⟩

namespace Source

/-- What becomes of a file on a disk, as far as the disk has a say in it. -/
def alone (source : Source) (remotePath : String) (localPath : Path) (d : Disk) : Fate :=
  match (source.fetch remotePath).outcome with
  | .error cause => .lost (.downloadFailed remotePath cause)
  | .ok bytes => .ofDelivery localPath ((deliver localPath bytes).answer ⟨d, []⟩)

/-- The disk that a file leaves behind. -/
def leaves (source : Source) (remotePath : String) (localPath : Path) (d : Disk) : Disk :=
  match (source.fetch remotePath).outcome with
  | .error _ => d
  | .ok bytes => ((deliver localPath bytes).after ⟨d, []⟩).disk

variable {source : Source} {folder : String} {place : Path} {e : Entry} {d d' mid : Disk}
  {visits more : List Visit}

/-- A file is reported as it fares alone. -/
theorem accountForFile_alone (source : Source) (folder : String) (place : Path) (e : Entry)
    (h : Host) :
    let step := source.accountForFile (join folder e.name) (place.child e.name)
    step.answer h = reportOf
        [⟨folder, place, e, source.alone (join folder e.name) (place.child e.name) h.disk⟩] ∧
      (step.after h).disk = source.leaves (join folder e.name) (place.child e.name) h.disk := by
  intro step
  obtain ⟨hanswer, hdisk, -⟩ :=
    source.accountForFile_eq (join folder e.name) (place.child e.name) h
  obtain ⟨asked, haskedDisk, -, hdownload⟩ := source.exists_asked (join folder e.name) h
  specialize hdownload (place.child e.name)
  rw [alone, leaves]
  cases hfetch : (source.fetch (join folder e.name)).outcome with
  | error cause =>
    simp only [Act.answer, Act.after, hdownload, hfetch] at hanswer hdisk
    exact ⟨hanswer, hdisk.trans haskedDisk⟩
  | ok bytes =>
    rw [hfetch] at hdownload
    have hsaves : (source.downloadFile (join folder e.name) (place.child e.name)).answer h =
        (save (place.child e.name) bytes).answer asked := congrArg Prod.fst hdownload
    have hleaves : (source.downloadFile (join folder e.name) (place.child e.name)).after h =
        (save (place.child e.name) bytes).after asked := congrArg Prod.snd hdownload
    -- the delivery sees nothing but the disk, which is still the same once the file was asked for
    obtain ⟨hsaved, hleft⟩ := save_eq (place.child e.name) bytes asked
    obtain ⟨hdelivered, hleft'⟩ := Directory.deliver_fromDisk (place.child e.name) bytes asked
      ⟨h.disk, []⟩ haskedDisk
    rw [hsaves, hsaved, hdelivered] at hanswer
    rw [hleaves, hleft, hleft'] at hdisk
    refine ⟨hanswer.trans ?_, hdisk⟩
    dsimp only
    cases (deliver (place.child e.name) bytes).answer ⟨h.disk, []⟩ with
    | ok _ => rfl
    | error cause => cases cause <;> rfl

/-- The account of a file tells what became of it. -/
theorem fate_eq_of_reportOf {fate : Fate} {remotePath : String} {localPath : Path}
    (hsettles : source.Settles remotePath localPath d fate d')
    (hreport : reportOf [⟨folder, place, e, fate⟩] =
      reportOf [⟨folder, place, e, source.alone remotePath localPath mid⟩]) :
    fate = source.alone remotePath localPath mid := by
  have halone : source.alone remotePath localPath mid = .saved ∨
      ∃ cause, source.alone remotePath localPath mid = .lost cause := by
    unfold alone
    split
    · exact Or.inr ⟨_, rfl⟩
    · cases (deliver localPath _).answer ⟨mid, []⟩ with
      | ok _ => exact Or.inl rfl
      | error cause => cases cause <;> exact Or.inr ⟨_, rfl⟩
  rcases hsettles.saved_or_lost with rfl | ⟨cause, rfl⟩ <;>
    rcases halone with halone | ⟨cause', halone⟩ <;>
    rw [halone] at hreport ⊢
  · cases congrArg FetchReport.saved hreport
  · cases congrArg FetchReport.saved hreport
  · cases congrArg FetchReport.failures hreport
    rfl

/-! ### One visit after the other -/

/-- `source.Carries d visits d'`: one visit after the other, each file fares as it does alone on
the disk that its turn finds and leaves its disk to the next one. -/
inductive Carries (source : Source) : Disk → List Visit → Disk → Prop
  | done (d : Disk) : Carries source d [] d
  | other {v d rest d'} : ¬ v.IsFile → v.fate ≠ .saved → Carries source d rest d' →
      Carries source d (v :: rest) d'
  | file {v d rest d'} : v.IsFile → v.fate = source.alone v.remotePath v.localPath d →
      Carries source (source.leaves v.remotePath v.localPath d) rest d' →
      Carries source d (v :: rest) d'

theorem Carries.append (h : source.Carries d visits mid) (h' : source.Carries mid more d') :
    source.Carries d (visits ++ more) d' := by
  induction h with
  | done d => exact h'
  | other hfile hfate _ ih => exact .other hfile hfate (ih h')
  | file hfile hfate _ ih => exact .file hfile hfate (ih h')

theorem Carries.split (h : source.Carries d (visits ++ more) d') :
    ∃ mid, source.Carries d visits mid ∧ source.Carries mid more d' := by
  induction visits generalizing d with
  | nil => exact ⟨d, .done d, h⟩
  | cons v rest ih =>
    cases h with
    | other hfile hfate h =>
      obtain ⟨mid, hfirst, hmore⟩ := ih h
      exact ⟨mid, .other hfile hfate hfirst, hmore⟩
    | file hfile hfate h =>
      obtain ⟨mid, hfirst, hmore⟩ := ih h
      exact ⟨mid, .file hfile hfate hfirst, hmore⟩

/-- What is reported as saved is a file. -/
theorem Carries.saved (h : source.Carries d visits d') {v : Visit} {p : Path} (hv : v ∈ visits)
    (hsaved : v.saved? = some p) : v.fate = .saved ∧ v.IsFile ∧ v.localPath = p := by
  have hfate : v.fate = .saved ∧ v.localPath = p := by
    rw [Visit.saved?] at hsaved
    split at hsaved
    · next hfate => exact ⟨hfate, Option.some.inj hsaved⟩
    · cases hsaved
  refine ⟨hfate.1, ?_, hfate.2⟩
  induction h with
  | done => cases hv
  | other _ hother _ ih =>
    rcases List.mem_cons.1 hv with rfl | hv
    · exact absurd hfate.1 hother
    · exact ih hv
  | file hfile _ _ ih =>
    rcases List.mem_cons.1 hv with rfl | hv
    · exact hfile
    · exact ih hv

/-- Whatever host the step runs on, it is a tour of the entries whose visits it carries out,
reports and asks about. -/
def Carried (source : Source) (folder : String) (place : Path) (entries : List Entry)
    (step : Act FetchReport) : Prop :=
  ∀ h, ∃ visits, source.Tour folder place h.disk entries visits (step.after h).disk ∧
    source.Carries h.disk visits (step.after h).disk ∧ step.answer h = reportOf visits ∧
    (step.after h).questions = h.questions ++ visits.filterMap Visit.question?

theorem Carried.followed {rest : List Entry} {here others : Act FetchReport}
    (hhere : ∀ h, ∃ visits, (∀ more d', source.Tour folder place (here.after h).disk rest more d' →
        source.Tour folder place h.disk (e :: rest) (visits ++ more) d') ∧
      source.Carries h.disk visits (here.after h).disk ∧
      here.answer h = reportOf visits ∧
      (here.after h).questions = h.questions ++ visits.filterMap Visit.question?)
    (hothers : source.Carried folder place rest others) :
    source.Carried folder place (e :: rest) (followed here others) := by
  intro h
  obtain ⟨visits, htour, hcarries, hanswer, hquestions⟩ := hhere h
  obtain ⟨more, hmore, hcarries', hanswer', hquestions'⟩ := hothers (here.after h)
  refine ⟨visits ++ more, htour more _ hmore, hcarries.append hcarries', ?_, ?_⟩
  · show here.answer h ++ others.answer (here.after h) = _
    rw [hanswer, hanswer', reportOf_append]
  · show (others.after (here.after h)).questions = _
    rw [hquestions', hquestions, List.filterMap_append, List.append_assoc]

theorem carried_downloadEntries (folder : String) (ends : source.Ends folder) (place : Path)
    (entries : List Entry)
    (listed : ∀ e ∈ entries, ∃ all, (source.list folder).outcome = .ok all ∧ e ∈ all) :
    source.Carried folder place entries
      (source.downloadEntries folder ends place entries listed) := by
  apply downloadEntries_rule (P := source.Carried)
  case done =>
    intro folder place h
    exact ⟨[], .done, .done _, rfl, by simp⟩
  case refused =>
    intro folder place e rest others hname hothers
    refine .followed (fun h => ⟨[⟨folder, place, e, .refused⟩], ?_, ?_, rfl, ?_⟩) hothers
    · exact fun more d' hmore => .refused hname hmore
    · exact .other (fun hfile => by rw [hfile.1] at hname; cases hname) (by simp) (.done _)
    · show ((Act.note _ _).after h).questions = h.questions ++ []
      rw [Act.aloof_questions.note, List.append_nil]
  case file =>
    intro folder place e rest others hname hkind hothers
    refine .followed (fun h => ?_) hothers
    obtain ⟨fate, hsettles, hanswer, hquestions⟩ :=
      source.accountForFile_settles folder place e h
    obtain ⟨hanswer', hleft⟩ := source.accountForFile_alone folder place e h
    have hfate := fate_eq_of_reportOf hsettles (hanswer.symm.trans hanswer')
    refine ⟨[⟨folder, place, e, fate⟩], fun more d' hmore => .file hname hkind hsettles hmore,
      .file ⟨hname, hkind⟩ hfate ?_, hanswer, hquestions⟩
    rw [hleft]
    exact .done _
  case unlisted =>
    intro folder place e rest others cause hname hkind hlisted hothers
    have hdisk : ∀ h, ((source.askListing (join folder e.name) *>
        skipSubtree (join folder e.name) cause).after h).disk = h.disk :=
      fun h => source.disk_after_askListing _ h
    refine .followed (fun h => ⟨[⟨folder, place, e, .unlisted cause⟩], ?_, ?_, rfl, ?_⟩) hothers
    · intro more d' hmore
      rw [hdisk] at hmore
      exact .unlisted hname hkind hlisted hmore
    · rw [hdisk]
      exact .other (fun hfile => by rw [hfile.2] at hkind; cases hkind) (by simp) (.done _)
    · rw [Act.after_seqRight]
      show ((Act.note _ _).after _).questions = _
      rw [Act.aloof_questions.note, questions_after_askListing]
      rfl
  case entered =>
    intro folder place e rest others inner below hname hkind hlisted hbelow hothers
    refine .followed (fun h => ?_) hothers
    -- the visits of its own entries start from where asking left the host
    obtain ⟨visits, htour, hcarries, hanswer, hquestions⟩ :=
      hbelow ((source.askListing (join folder e.name)).after h)
    rw [disk_after_askListing] at htour hcarries
    rw [questions_after_askListing] at hquestions
    refine ⟨⟨folder, place, e, .entered⟩ :: visits, ?_, ?_, hanswer, ?_⟩
    · exact fun more d' hmore => .entered hname hkind hlisted htour hmore
    · exact .other (fun hfile => by rw [hfile.2] at hkind; cases hkind) (by simp) hcarries
    · rw [Act.after_seqRight, hquestions, List.append_assoc]
      rfl

/-- A download that is not given up carries out the visits of a tour. -/
theorem download_carried {report : FetchReport} {ends : source.Ends folder} {root : Path} {h : Host}
    (hok : (source.download folder ends root).answer h = .ok report) :
    ∃ entries visits, (source.list folder).outcome = .ok entries ∧
      source.Tour folder root h.disk entries visits
        ((source.download folder ends root).after h).disk ∧
      source.Carries h.disk visits ((source.download folder ends root).after h).disk ∧
      report = reportOf visits ∧
      ((source.download folder ends root).after h).questions =
        h.questions ++ .list folder :: visits.filterMap Visit.question? := by
  cases hlisted : (source.list folder).outcome with
  | error cause =>
    rw [Act.answer, download_unlisted hlisted] at hok
    cases hok
  | ok entries =>
    have hlists : ∀ e ∈ entries, ∃ all, (source.list folder).outcome = .ok all ∧ e ∈ all :=
      fun _ he => ⟨entries, hlisted, he⟩
    have hstep : source.download folder ends root h =
        (.ok ((source.downloadEntries folder ends root entries hlists).answer
            ((source.askListing folder).after h)),
          (source.downloadEntries folder ends root entries hlists).after
            ((source.askListing folder).after h)) := by
      unfold download
      split
      · next cause hlisted' =>
        rw [hlisted] at hlisted'
        cases hlisted'
      · next entries' hlisted' =>
        rw [hlisted] at hlisted'
        cases hlisted'
        rfl
    obtain ⟨visits, htour, hcarries, hanswer, hquestions⟩ :=
      carried_downloadEntries folder ends root entries hlists ((source.askListing folder).after h)
    rw [disk_after_askListing] at htour hcarries
    rw [questions_after_askListing] at hquestions
    rw [Act.answer, hstep] at hok
    rw [Act.after, hstep]
    refine ⟨entries, visits, rfl, htour, hcarries, ?_, ?_⟩
    · rw [← hanswer]
      exact (Except.ok.inj hok).symm
    · rw [hquestions, List.append_assoc]
      rfl

end Source

end GemCourier.Remote
