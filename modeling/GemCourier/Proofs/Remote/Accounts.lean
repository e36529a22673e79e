/-
GemCourier/Proofs/Remote/Accounts.lean

Every listed entry is accounted for once, in the order of the listings.

A download tells its caller what was saved and what failed, and asks its source
questions on the way.  All three are views of one list, the visits: what became
of each listed entry, those of a directory right behind the visit to it.  A
`Tour` says which visits a source, a listing and a disk can lead to, and every
download is a tour whatever the source answers and whatever stands in the way
on the disk.

Main result: `download_accounts`.
-/
import GemCourier.Proofs.Remote.Entries

namespace GemCourier

/-- The path that a question is about. -/
def Question.path : Question → String
  | .list path => path
  | .fetch path => path

namespace Remote

/-! ### Visits -/

/-- What becomes of a listed entry. -/
inductive Fate where
  /-- Its name is not plain, and it is not asked for. -/
  | refused
  /-- It is a file, and was written. -/
  | saved
  /-- It is a file, and was not written. -/
  | lost (cause : FetchError)
  /-- It is a directory that could not be listed. -/
  | unlisted (cause : RemoteError)
  /-- It is a directory, and its own entries come next. -/
  | entered

/-- A listed entry with the directory it was listed in, the local place of that directory,
and what became of the entry. -/
structure Visit where
  folder : String
  place : Path
  entry : Entry
  fate : Fate

namespace Visit

/-- The remote path of the entry. -/
def remotePath (v : Visit) : String := join v.folder v.entry.name

/-- The local path of the entry. -/
def localPath (v : Visit) : Path := v.place.child v.entry.name

/-- The one question asked about the entry, if any. -/
def question? (v : Visit) : Option Question :=
  match v.fate with
  | .refused => none
  | .saved | .lost _ => some (.fetch v.remotePath)
  | .unlisted _ | .entered => some (.list v.remotePath)

/-- The local path of the entry, if it was saved. -/
def saved? (v : Visit) : Option Path :=
  match v.fate with
  | .saved => some v.localPath
  | _ => none

/-- The one failure about the entry, if there is one. -/
def failure? (v : Visit) : Option (String × FetchError) :=
  match v.fate with
  | .refused => some (v.remotePath, .invalidName v.entry.name)
  | .lost cause => some (v.remotePath, cause)
  | .unlisted cause => some (v.remotePath, .listingFailed v.remotePath cause)
  | .saved | .entered => none

theorem fst_of_failure? {v : Visit} {f : String × FetchError} (h : v.failure? = some f) :
    f.1 = v.remotePath := by
  cases hfate : v.fate <;>
    simp only [failure?, hfate, Option.some.injEq, reduceCtorEq] at h <;> rw [← h]

theorem path_of_question? {v : Visit} {q : Question} (h : v.question? = some q) :
    q.path = v.remotePath := by
  cases hfate : v.fate <;>
    simp only [question?, hfate, Option.some.injEq, reduceCtorEq] at h <;>
      simp only [← h, Question.path]

end Visit

/-- The report on some visits. -/
def reportOf (visits : List Visit) : FetchReport :=
  ⟨visits.filterMap Visit.saved?, visits.filterMap Visit.failure?⟩

theorem reportOf_append (visits more : List Visit) :
    reportOf (visits ++ more) = reportOf visits ++ reportOf more := by
  show reportOf (visits ++ more) = FetchReport.append _ _
  simp [reportOf, FetchReport.append]

theorem isComplete_reportOf {visits : List Visit} :
    (reportOf visits).isComplete = true ↔ ∀ v ∈ visits, v.failure? = none := by
  show (visits.filterMap Visit.failure?).isEmpty = true ↔ _
  rw [List.isEmpty_iff, List.filterMap_eq_nil_iff]

namespace Source

variable {source : Source}

/-! ### Tours -/

/-- What can become of a file at a remote path that is to be written to a local one: it reads
as it was fetched, it was not fetched, the local way to it is blocked, or the disk refuses to
have it written. -/
inductive Settles (source : Source) (remotePath : String) (localPath : Path) :
    Disk → Fate → Disk → Prop
  | saved {d d' bytes} : (source.fetch remotePath).outcome = .ok bytes → d.Grows d' →
      d'.readFile localPath = .ok bytes → Settles source remotePath localPath d .saved d'
  | unfetched {d cause} : (source.fetch remotePath).outcome = .error cause →
      Settles source remotePath localPath d (.lost (.downloadFailed remotePath cause)) d
  | unprepared {d d' bytes} {cause : DirectoryError} :
      (source.fetch remotePath).outcome = .ok bytes → d.Grows d' →
      cause.Blocks d' localPath.components.dropLast →
      Settles source remotePath localPath d (.lost (.prepareDirectory localPath cause)) d'
  | unwritten {d d' bytes fault} : (source.fetch remotePath).outcome = .ok bytes → d.Grows d' →
      d'.writeFile localPath bytes = .error fault →
      Settles source remotePath localPath d (.lost (.writeFailed localPath fault)) d'

/-- `source.Tour folder place d entries visits d'`: the visits account for the entries listed
in the remote directory `folder`, for which `place` is the local one, each once and in order,
and lead from the disk `d` to `d'`. -/
inductive Tour (source : Source) :
    String → Path → Disk → List Entry → List Visit → Disk → Prop
  | done {folder place d} : Tour source folder place d [] [] d
  | refused {folder place d e rest visits d'} : isPlainName e.name = false →
      Tour source folder place d rest visits d' →
      Tour source folder place d (e :: rest) (⟨folder, place, e, .refused⟩ :: visits) d'
  | file {folder place d e fate mid rest visits d'} : isPlainName e.name = true →
      e.kind = .file →
      source.Settles (join folder e.name) (place.child e.name) d fate mid →
      Tour source folder place mid rest visits d' →
      Tour source folder place d (e :: rest) (⟨folder, place, e, fate⟩ :: visits) d'
  | unlisted {folder place d e cause rest visits d'} : isPlainName e.name = true →
      e.kind = .directory → (source.list (join folder e.name)).outcome = .error cause →
      Tour source folder place d rest visits d' →
      Tour source folder place d (e :: rest) (⟨folder, place, e, .unlisted cause⟩ :: visits) d'
  | entered {folder place d e inner below mid rest visits d'} : isPlainName e.name = true →
      e.kind = .directory → (source.list (join folder e.name)).outcome = .ok inner →
      Tour source (join folder e.name) (place.child e.name) d inner below mid →
      Tour source folder place mid rest visits d' →
      Tour source folder place d (e :: rest)
        (⟨folder, place, e, .entered⟩ :: (below ++ visits)) d'

section Reading

variable {folder remotePath : String} {place localPath : Path} {d d' : Disk} {e : Entry}
  {rest inner : List Entry} {visits : List Visit} {fate : Fate} {cause : RemoteError}

/-- A file that cannot be fetched settles in one way. -/
theorem Settles.of_unfetched (h : source.Settles remotePath localPath d fate d')
    (hfetch : (source.fetch remotePath).outcome = .error cause) :
    fate = .lost (.downloadFailed remotePath cause) ∧ d' = d := by
  cases h with
  | unfetched hfetch' =>
    obtain rfl := Except.error.inj (hfetch'.symm.trans hfetch)
    exact ⟨rfl, rfl⟩
  | saved hfetch' | unprepared hfetch' | unwritten hfetch' => cases hfetch'.symm.trans hfetch

theorem Tour.of_refused (h : source.Tour folder place d (e :: rest) visits d')
    (hname : isPlainName e.name = false) :
    ∃ more, visits = ⟨folder, place, e, .refused⟩ :: more ∧
      source.Tour folder place d rest more d' := by
  cases h with
  | refused _ hrest => exact ⟨_, rfl, hrest⟩
  | file hname' | unlisted hname' | entered hname' => cases hname'.symm.trans hname

theorem Tour.of_file (h : source.Tour folder place d (e :: rest) visits d')
    (hname : isPlainName e.name = true) (hkind : e.kind = .file) :
    ∃ fate mid more, visits = ⟨folder, place, e, fate⟩ :: more ∧
      source.Settles (join folder e.name) (place.child e.name) d fate mid ∧
      source.Tour folder place mid rest more d' := by
  cases h with
  | file _ _ hsettles hrest => exact ⟨_, _, _, rfl, hsettles, hrest⟩
  | refused hname' => cases hname'.symm.trans hname
  | unlisted _ hkind' | entered _ hkind' => cases hkind'.symm.trans hkind

theorem Tour.of_unlisted (h : source.Tour folder place d (e :: rest) visits d')
    (hname : isPlainName e.name = true) (hkind : e.kind = .directory)
    (hlisted : (source.list (join folder e.name)).outcome = .error cause) :
    ∃ more, visits = ⟨folder, place, e, .unlisted cause⟩ :: more ∧
      source.Tour folder place d rest more d' := by
  cases h with
  | unlisted _ _ hlisted' hrest =>
    obtain rfl := Except.error.inj (hlisted'.symm.trans hlisted)
    exact ⟨_, rfl, hrest⟩
  | refused hname' => cases hname'.symm.trans hname
  | file _ hkind' => cases hkind'.symm.trans hkind
  | entered _ _ hlisted' => cases hlisted'.symm.trans hlisted

theorem Tour.of_entered (h : source.Tour folder place d (e :: rest) visits d')
    (hname : isPlainName e.name = true) (hkind : e.kind = .directory)
    (hlisted : (source.list (join folder e.name)).outcome = .ok inner) :
    ∃ below mid more, visits = ⟨folder, place, e, .entered⟩ :: (below ++ more) ∧
      source.Tour (join folder e.name) (place.child e.name) d inner below mid ∧
      source.Tour folder place mid rest more d' := by
  cases h with
  | entered _ _ hlisted' hbelow hrest =>
    obtain rfl := Except.ok.inj (hlisted'.symm.trans hlisted)
    exact ⟨_, _, _, rfl, hbelow, hrest⟩
  | refused hname' => cases hname'.symm.trans hname
  | file _ hkind' => cases hkind'.symm.trans hkind
  | unlisted _ _ hlisted' => cases hlisted'.symm.trans hlisted

end Reading

/-- Whatever host the step runs on, it is a tour of the entries, reports on its visits and
asks their questions. -/
def Tours (source : Source) (folder : String) (place : Path) (entries : List Entry)
    (step : Act FetchReport) : Prop :=
  ∀ h, ∃ visits, source.Tour folder place h.disk entries visits (step.after h).disk ∧
    step.answer h = reportOf visits ∧
    (step.after h).questions = h.questions ++ visits.filterMap Visit.question?

/-! ### One file -/

/-- Writing a downloaded file leaves it as it was fetched, or fails because the way to it is
blocked, or for what the disk says. -/
theorem save_cases (localPath : Path) (bytes : ByteArray) (h : Host) :
    (save localPath bytes).answer h = .ok bytes.size ∧
        ((save localPath bytes).after h).disk.readFile localPath = .ok bytes ∨
      (∃ cause, (save localPath bytes).answer h = .error (.prepareDirectory localPath cause) ∧
        cause.Blocks ((save localPath bytes).after h).disk localPath.components.dropLast) ∨
      ∃ fault, (save localPath bytes).answer h = .error (.writeFailed localPath fault) ∧
        ((save localPath bytes).after h).disk.writeFile localPath bytes = .error fault := by
  cases hparent : (Directory.ensureParent localPath).answer h with
  | error cause =>
    have hblocks := Directory.ensureParent_error hparent
    refine Or.inr (Or.inl ⟨cause, ?_, ?_⟩)
    · simp [save, hparent]
    · simpa [save, hparent] using hblocks
  | ok _ =>
    cases hwrite : ((Directory.ensureParent localPath).after h).disk.writeFile localPath bytes with
    | ok d =>
      obtain ⟨hanswer, hafter⟩ := Act.change_ok (f := (·.writeFile localPath bytes)) hwrite
      obtain ⟨_, _, _, _, _, _, hread⟩ := Disk.writeFile_ok hwrite
      refine Or.inl ⟨?_, ?_⟩
      · simp [save, hparent, hanswer]
      · simpa [save, hparent, hanswer, hafter] using hread
    | error fault =>
      obtain ⟨hanswer, hafter⟩ := Act.change_error (f := (·.writeFile localPath bytes)) hwrite
      refine Or.inr (Or.inr ⟨fault, ?_, ?_⟩)
      · simp [save, hparent, hanswer]
      · simpa [save, hparent, hanswer, hafter] using hwrite

/-- A download first asks for the file: the question is asked on a host with the same disk. -/
theorem exists_asked (source : Source) (remotePath : String) (h : Host) :
    ∃ asked : Host, asked.disk = h.disk ∧ asked.questions = h.questions ++ [.fetch remotePath] ∧
      ∀ localPath, source.downloadFile remotePath localPath h =
        match (source.fetch remotePath).outcome with
        | .error cause => (.error (.downloadFailed remotePath cause), asked)
        | .ok bytes => save localPath bytes asked := by
  let noted := (Act.note .info s!"Downloading: {remotePath}").after h
  refine ⟨(ask (.fetch remotePath) (source.fetch remotePath)).after noted, ?_, ?_, ?_⟩
  · rw [disk_after_ask]
    rfl
  · rw [questions_after_ask, show noted.questions = h.questions from Act.aloof_questions.note _ _ h]
  · intro localPath
    show (match (ask (.fetch remotePath) (source.fetch remotePath)).answer noted with
      | .error cause => pure (.error (.downloadFailed remotePath cause))
      | .ok bytes => save localPath bytes : Act (Except FetchError Nat)) _ = _
    rw [answer_ask]
    cases (source.fetch remotePath).outcome <;> rfl

/-- What came of a download decides the account of a file, and accounting for it leaves the
disk and the questions alone. -/
theorem accountForFile_eq (source : Source) (remotePath : String) (localPath : Path) (h : Host) :
    (source.accountForFile remotePath localPath).answer h =
        (match (source.downloadFile remotePath localPath).answer h with
          | .ok _ => .ofSaved localPath
          | .error e => .ofFailure remotePath e) ∧
      ((source.accountForFile remotePath localPath).after h).disk =
        ((source.downloadFile remotePath localPath).after h).disk ∧
      ((source.accountForFile remotePath localPath).after h).questions =
        ((source.downloadFile remotePath localPath).after h).questions := by
  cases hanswer : (source.downloadFile remotePath localPath).answer h with
  | ok n =>
    refine ⟨by simp [accountForFile, hanswer], by simp [accountForFile, hanswer], ?_⟩
    simp only [accountForFile, Act.after_bind, hanswer, Act.after_pure]
    exact Act.aloof_questions.note _ _ _
  | error e =>
    refine ⟨by simp [accountForFile, hanswer], by simp [accountForFile, hanswer], ?_⟩
    simp only [accountForFile, Act.after_bind, hanswer, Act.after_pure]
    exact Act.aloof_questions.note _ _ _

/-- A file settles, is reported as it settled, and is asked for once. -/
theorem accountForFile_settles (source : Source) (folder : String) (place : Path) (e : Entry)
    (h : Host) :
    let step := source.accountForFile (join folder e.name) (place.child e.name)
    ∃ fate, source.Settles (join folder e.name) (place.child e.name) h.disk fate
        (step.after h).disk ∧
      step.answer h = reportOf [⟨folder, place, e, fate⟩] ∧
      (step.after h).questions =
        h.questions ++ [(⟨folder, place, e, fate⟩ : Visit)].filterMap Visit.question? := by
  intro step
  obtain ⟨hanswer, hdisk, hquestions⟩ :=
    source.accountForFile_eq (join folder e.name) (place.child e.name) h
  obtain ⟨asked, haskedDisk, haskedQuestions, hdownload⟩ :=
    source.exists_asked (join folder e.name) h
  specialize hdownload (place.child e.name)
  cases hfetch : (source.fetch (join folder e.name)).outcome with
  | error cause =>
    rw [hfetch] at hdownload
    have hanswered : (source.downloadFile (join folder e.name) (place.child e.name)).answer h =
        .error (.downloadFailed (join folder e.name) cause) := congrArg Prod.fst hdownload
    have hleft : (source.downloadFile (join folder e.name) (place.child e.name)).after h =
        asked := congrArg Prod.snd hdownload
    rw [hanswered] at hanswer
    rw [hleft] at hdisk hquestions
    refine ⟨.lost (.downloadFailed (join folder e.name) cause), ?_, hanswer, ?_⟩
    · have hsame : (step.after h).disk = h.disk := hdisk.trans haskedDisk
      rw [hsame]
      exact .unfetched hfetch
    · exact hquestions.trans haskedQuestions
  | ok bytes =>
    rw [hfetch] at hdownload
    let saving := save (place.child e.name) bytes
    have hanswered : (source.downloadFile (join folder e.name) (place.child e.name)).answer h =
        saving.answer asked := congrArg Prod.fst hdownload
    have hleft : (source.downloadFile (join folder e.name) (place.child e.name)).after h =
        saving.after asked := congrArg Prod.snd hdownload
    rw [hanswered] at hanswer
    rw [hleft] at hdisk hquestions
    -- saving goes on from the disk that asking left
    have hgrows : h.disk.Grows (saving.after asked).disk := by
      rw [← haskedDisk]
      exact (does_save (fun _ _ => trivial) trivial : (save _ _).Does fun _ => True).grows asked
    have hasks : (step.after h).questions = h.questions ++ [.fetch (join folder e.name)] :=
      hquestions.trans ((save_questions _ _ asked).trans haskedQuestions)
    rw [show (step.after h).disk = (saving.after asked).disk from hdisk]
    rcases save_cases (place.child e.name) bytes asked with
      ⟨hsaved, hread⟩ | ⟨cause, hlost, hblocks⟩ | ⟨fault, hlost, hwrite⟩
    · rw [hsaved] at hanswer
      exact ⟨.saved, .saved hfetch hgrows hread, hanswer, hasks⟩
    · rw [hlost] at hanswer
      exact ⟨_, .unprepared hfetch hgrows hblocks, hanswer, hasks⟩
    · rw [hlost] at hanswer
      exact ⟨_, .unwritten hfetch hgrows hwrite, hanswer, hasks⟩

/-! ### All entries -/

/-- The accounts of one entry and then those of the others are the accounts of all. -/
theorem Tours.followed {folder : String} {place : Path} {e : Entry} {rest : List Entry}
    {here others : Act FetchReport}
    (hhere : ∀ h, ∃ visits, (∀ more d', source.Tour folder place (here.after h).disk rest more d' →
        source.Tour folder place h.disk (e :: rest) (visits ++ more) d') ∧
      here.answer h = reportOf visits ∧
      (here.after h).questions = h.questions ++ visits.filterMap Visit.question?)
    (hothers : source.Tours folder place rest others) :
    source.Tours folder place (e :: rest) (followed here others) := by
  intro h
  obtain ⟨visits, htour, hanswer, hquestions⟩ := hhere h
  obtain ⟨more, hmore, hanswer', hquestions'⟩ := hothers (here.after h)
  refine ⟨visits ++ more, htour more _ hmore, ?_, ?_⟩
  · show here.answer h ++ others.answer (here.after h) = _
    rw [hanswer, hanswer', reportOf_append]
  · show (others.after (here.after h)).questions = _
    rw [hquestions', hquestions, List.filterMap_append, List.append_assoc]

theorem tours_downloadEntries (folder : String) (ends : source.Ends folder) (place : Path)
    (entries : List Entry)
    (listed : ∀ e ∈ entries, ∃ all, (source.list folder).outcome = .ok all ∧ e ∈ all) :
    source.Tours folder place entries
      (source.downloadEntries folder ends place entries listed) := by
  apply downloadEntries_rule (P := source.Tours)
  case done =>
    intro folder place h
    exact ⟨[], .done, rfl, by simp⟩
  case refused =>
    intro folder place e rest others hname hothers
    refine .followed (fun h => ⟨[⟨folder, place, e, .refused⟩], ?_, rfl, ?_⟩) hothers
    · exact fun more d' hmore => .refused hname hmore
    · show ((Act.note _ _).after h).questions = h.questions ++ []
      rw [Act.aloof_questions.note, List.append_nil]
  case file =>
    intro folder place e rest others hname hkind hothers
    refine .followed (fun h => ?_) hothers
    obtain ⟨fate, hsettles, hanswer, hquestions⟩ :=
      source.accountForFile_settles folder place e h
    exact ⟨[⟨folder, place, e, fate⟩], fun more d' hmore => .file hname hkind hsettles hmore,
      hanswer, hquestions⟩
  case unlisted =>
    intro folder place e rest others cause hname hkind hlisted hothers
    refine .followed (fun h => ⟨[⟨folder, place, e, .unlisted cause⟩], ?_, rfl, ?_⟩) hothers
    · intro more d' hmore
      refine .unlisted hname hkind hlisted ?_
      rw [Act.after_seqRight] at hmore
      rwa [show ((skipSubtree _ _).after _).disk = h.disk from
        source.disk_after_askListing _ h] at hmore
    · rw [Act.after_seqRight]
      show ((Act.note _ _).after _).questions = _
      rw [Act.aloof_questions.note, questions_after_askListing]
      rfl
  case entered =>
    intro folder place e rest others inner below hname hkind hlisted hbelow hothers
    refine .followed (fun h => ?_) hothers
    -- the accounts of its own entries are those of a tour from where asking left the host
    obtain ⟨visits, htour, hanswer, hquestions⟩ :=
      hbelow ((source.askListing (join folder e.name)).after h)
    rw [disk_after_askListing] at htour
    rw [questions_after_askListing] at hquestions
    refine ⟨⟨folder, place, e, .entered⟩ :: visits, ?_, hanswer, ?_⟩
    · exact fun more d' hmore => .entered hname hkind hlisted htour hmore
    · rw [Act.after_seqRight, hquestions, List.append_assoc]
      rfl

/-! ### The download -/

/-- Where the directory that was asked for cannot be listed, that is all there is to it. -/
theorem download_unlisted {folder : String} {cause : RemoteError}
    (hlisted : (source.list folder).outcome = .error cause) (ends : source.Ends folder)
    (root : Path) (h : Host) :
    source.download folder ends root h =
      (.error (.listingFailed folder cause), (source.askListing folder).after h) := by
  unfold download
  split
  · next cause' hlisted' =>
    rw [hlisted] at hlisted'
    cases hlisted'
    rfl
  · next entries hlisted' =>
    rw [hlisted] at hlisted'
    cases hlisted'

/-- Where it can be listed, the entries are toured. -/
theorem download_listed {folder : String} {entries : List Entry}
    (hlisted : (source.list folder).outcome = .ok entries) (ends : source.Ends folder)
    (root : Path) (h : Host) :
    ∃ others, source.Tours folder root entries others ∧
      source.download folder ends root h =
        (.ok (others.answer ((source.askListing folder).after h)),
          others.after ((source.askListing folder).after h)) := by
  refine ⟨source.downloadEntries folder ends root entries fun _ he => ⟨entries, hlisted, he⟩,
    tours_downloadEntries _ _ _ _ _, ?_⟩
  unfold download
  split
  · next cause hlisted' =>
    rw [hlisted] at hlisted'
    cases hlisted'
  · next entries' hlisted' =>
    rw [hlisted] at hlisted'
    cases hlisted'
    rfl

/-- A download fails only if the directory that was asked for cannot be listed, and then
nothing else is asked and the disk stays as it was.  Otherwise it is a tour of the listed
entries: it answers with the report on its visits, asks their questions and no others, and is
complete if none of them failed. -/
theorem download_accounts (source : Source) (folder : String) (ends : source.Ends folder)
    (root : Path) (h : Host) :
    let step := source.download folder ends root
    ((∃ e, step.answer h = .error e) ↔ ∃ cause, (source.list folder).outcome = .error cause) ∧
      (∀ cause, (source.list folder).outcome = .error cause →
        step.answer h = .error (.listingFailed folder cause) ∧
        (step.after h).questions = h.questions ++ [.list folder] ∧
        (step.after h).disk = h.disk) ∧
      ∀ entries, (source.list folder).outcome = .ok entries →
        ∃ visits, source.Tour folder root h.disk entries visits (step.after h).disk ∧
          step.answer h = .ok (reportOf visits) ∧
          (step.after h).questions =
            h.questions ++ .list folder :: visits.filterMap Visit.question? ∧
          ((reportOf visits).isComplete = true ↔ ∀ v ∈ visits, v.failure? = none) := by
  intro step
  have hasked := source.questions_after_askListing folder h
  have haskedDisk := source.disk_after_askListing folder h
  refine ⟨⟨?_, ?_⟩, ?_, ?_⟩
  · rintro ⟨e, herror⟩
    cases hlisted : (source.list folder).outcome with
    | error cause => exact ⟨cause, rfl⟩
    | ok entries =>
      obtain ⟨others, -, (hstep : step h = _)⟩ := download_listed hlisted ends root h
      rw [Act.answer, hstep] at herror
      cases herror
  · rintro ⟨cause, hlisted⟩
    have hstep : step h = _ := download_unlisted hlisted ends root h
    exact ⟨.listingFailed folder cause, by rw [Act.answer, hstep]⟩
  · intro cause hlisted
    have hstep : step h = _ := download_unlisted hlisted ends root h
    rw [Act.answer, Act.after, hstep]
    exact ⟨rfl, hasked, haskedDisk⟩
  · intro entries hlisted
    obtain ⟨others, htours, (hstep : step h = _)⟩ := download_listed hlisted ends root h
    obtain ⟨visits, htour, hanswer, hquestions⟩ := htours ((source.askListing folder).after h)
    rw [Act.answer, Act.after, hstep]
    refine ⟨visits, ?_, ?_, ?_, isComplete_reportOf⟩
    · rwa [haskedDisk] at htour
    · show Except.ok (others.answer _) = _
      rw [hanswer]
    · show (others.after _).questions = _
      rw [hquestions, hasked, List.append_assoc]
      rfl

end Source

/-- A tree with a file, a directory whose one file breaks off, a name that leads upwards, and a
directory that is not found. -/
def smallTree : StoredTree where
  listings := [
    ("t", .held [(.file, "a"), (.directory, "d"), (.file, ".."), (.directory, "e")]),
    ("t/d", .held [(.file, "b")])]
  files := [("t/a", .held "1".toUTF8), ("t/d/b", .broken "reset")]

/-- The visits to the entries of that tree, in order. -/
def smallVisits (fate : Fate) : List Visit := [
  ⟨"t", ⟨"m"⟩, .below "t" "a" .file, fate⟩,
  ⟨"t", ⟨"m"⟩, .below "t" "d" .directory, .entered⟩,
  ⟨"t/d", ⟨"m/d"⟩, .below "t/d" "b" .file,
    .lost (.downloadFailed "t/d/b" (.transport "fetch:t/d/b" "reset"))⟩,
  ⟨"t", ⟨"m"⟩, .below "t" ".." .file, .refused⟩,
  ⟨"t", ⟨"m"⟩, .below "t" "e" .directory, .unlisted (.status "list:t/e" 404)⟩]

/-- A tour of that tree leads to these visits, whatever becomes of the one file that is fetched. -/
theorem tour_smallTree {d d' : Disk} {visits : List Visit}
    (h : smallTree.toTree.toSource.Tour "t" ⟨"m"⟩ d [.below "t" "a" .file,
      .below "t" "d" .directory, .below "t" ".." .file, .below "t" "e" .directory] visits d') :
    ∃ fate mid, smallTree.toTree.toSource.Settles "t/a" ⟨"m/a"⟩ d fate mid ∧
      visits = smallVisits fate := by
  have ha : join "t" (Entry.below "t" "a" .file).name = "t/a" := by decide +kernel
  have hd : join "t" (Entry.below "t" "d" .directory).name = "t/d" := by decide +kernel
  have hb : join "t/d" (Entry.below "t/d" "b" .file).name = "t/d/b" := by decide +kernel
  have he : join "t" (Entry.below "t" "e" .directory).name = "t/e" := by decide +kernel
  have hplaceA : (⟨"m"⟩ : Path).child (Entry.below "t" "a" .file).name = ⟨"m/a"⟩ := by
    decide +kernel
  have hplaceD : (⟨"m"⟩ : Path).child (Entry.below "t" "d" .directory).name = ⟨"m/d"⟩ := by
    decide +kernel
  have hinner : (smallTree.toTree.list "t/d").outcome = .ok [.below "t/d" "b" .file] := rfl
  have hbroken : (smallTree.toTree.fetch "t/d/b").outcome =
      .error (.transport "fetch:t/d/b" "reset") := rfl
  have hmissing : (smallTree.toTree.list "t/e").outcome = .error (.status "list:t/e" 404) := rfl
  obtain ⟨fate, mid, fromD, hvisits, hsettles, hfromD⟩ := h.of_file (by decide +kernel) rfl
  obtain ⟨below, mid', fromUp, rfl, hbelow, hfromUp⟩ := hfromD.of_entered
    (by decide +kernel) rfl (by rw [hd]; exact hinner)
  rw [hd, hplaceD] at hbelow
  -- its own file is visited right behind the directory
  obtain ⟨lost, mid'', none, rfl, hlost, hdone⟩ := hbelow.of_file (by decide +kernel) rfl
  rw [hb] at hlost
  obtain ⟨rfl, -⟩ := hlost.of_unfetched hbroken
  cases hdone
  obtain ⟨fromE, rfl, hfromE⟩ := hfromUp.of_refused (by decide +kernel)
  obtain ⟨none, rfl, hdone⟩ := hfromE.of_unlisted (by decide +kernel) rfl
    (by rw [he]; exact hmissing)
  cases hdone
  rw [ha, hplaceA] at hsettles
  exact ⟨fate, mid, hsettles, hvisits⟩

/-- The file below the nested directory is accounted for in between, and what fails keeps nothing
else from being asked for. -/
theorem download_accounts_smallTree :
    let source := smallTree.toTree.toSource
    let step := source.download "t" (smallTree.toTree.ends "t") ⟨"m"⟩
    ∃ fate after, source.Settles "t/a" ⟨"m/a"⟩ (default : Host).disk fate after ∧
      step.answer default = .ok (reportOf (smallVisits fate)) ∧
      (step.after default).questions =
        [.list "t", .fetch "t/a", .list "t/d", .fetch "t/d/b", .list "t/e"] := by
  intro source step
  obtain ⟨visits, htour, hanswer, hquestions, -⟩ := (Source.download_accounts source "t"
    (smallTree.toTree.ends "t") ⟨"m"⟩ default).2.2 [.below "t" "a" .file,
      .below "t" "d" .directory, .below "t" ".." .file, .below "t" "e" .directory] rfl
  obtain ⟨fate, mid, hsettles, rfl⟩ := tour_smallTree htour
  refine ⟨fate, mid, hsettles, hanswer, ?_⟩
  have hasked : (smallVisits fate).filterMap Visit.question? =
      (smallVisits .saved).filterMap Visit.question? := by
    -- the file is asked for, saved or not
    cases hsettles <;> rfl
  rw [hquestions, hasked]
  decide +kernel

end Remote

end GemCourier
