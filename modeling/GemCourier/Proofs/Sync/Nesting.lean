/-
GemCourier/Proofs/Sync/Nesting.lean

How deep the calls of a walk are nested.

A walk calls itself for every directory in a directory, and a symbolic link may
lead back up, so the paths it would visit need not be finite in number.  What
ends it is that no path leads through more than forty links: a directory that is
entered was looked up in the one before by one more name, and that name either
goes one location down or uses up a link, which is worth the whole depth of the
disk (`GoesInto.gain_lt`).  So entering is well-founded, and directories nest
less deep than `walkBound` (`nests_lt_walkBound`).

`walkBy` is one call of a walk, with the calls that it makes left open, and
`walkCalls` is the recursion with a number of calls that may be made one inside
the other.  It gives no answer exactly where directories nest that deep, and
elsewhere it gives what the walk gives.  The commands that walk are put together
from calls in the same way.

Main results: `wellFounded_goesInto`, `nests_lt_walkBound`, `walkCalls_eq_none`,
`walkCalls_eq_leavesBelow`, `walks_end`.
-/
import GemCourier.Bytecode.Install
import GemCourier.Proofs.Disk.Entering
import GemCourier.Proofs.Sync.Moments

namespace GemCourier

/-- Whether a finding is kept where only some of the leaves are. -/
def Finding.isKept (keep : Path → Bool) : Finding → Bool
  | leaf p => keep p
  | unreadable .. => true

namespace Disk

variable {d : Disk} {folder outer inner p : Path} {k k' : Nat} {loc loc' : Location}
  {depth calls : Nat} {keep : Path → Bool}

/-! ### Directories in directories -/

/-- A walk goes from the directory `outer` into the directory `inner`, which is listed there. -/
def GoesInto (d : Disk) (outer inner : Path) : Prop :=
  ∃ children, d.childrenOf outer = .ok children ∧ inner ∈ children ∧ d.isFolder inner = true

/-- The way to a directory that a walk goes into gains on a way to the directory it comes from. -/
theorem GoesInto.gain_lt (hd : d.WellFormed) (h : d.GoesInto outer inner)
    (hinner : d.Opens inner k' loc') :
    ∃ k loc, d.Opens outer k loc ∧ d.gain k loc < d.gain k' loc' := by
  obtain ⟨children, hchildren, hmem, -⟩ := h
  obtain ⟨names, hnames, rfl⟩ := childrenOf_ok_iff.1 hchildren
  obtain ⟨n, hn, rfl⟩ := List.mem_map.1 hmem
  have houter : outer.text ≠ "" := by
    obtain ⟨found, hfind, -⟩ := names_ok_iff.1 hnames
    exact (find_ok_iff.1 hfind).1.ne_empty
  obtain ⟨k, loc, hopens, hway⟩ := hinner.parent houter (isEntryName_of_names hd hnames hn)
  have hfolder : d.node? loc ≠ none := by rw [hopens.folder hd]; simp
  exact ⟨k, loc, hopens, gain_lt_of_way hfolder hopens.way.links_le hway⟩

/-- Directories lie one in the other so many levels below a directory. -/
inductive Nests (d : Disk) : Path → Nat → Prop
  | here (folder : Path) : Nests d folder 0
  | down {outer inner : Path} {depth : Nat} : d.GoesInto outer inner → Nests d inner depth →
      Nests d outer (depth + 1)

/-- What the way to a directory has gained is lost for the levels below it. -/
theorem Nests.exists_gain_add_lt (hd : d.WellFormed) (h : d.Nests folder depth) :
    depth = 0 ∨ ∃ k loc, d.Opens folder k loc ∧ d.gain k loc + depth < d.walkBound := by
  induction h with
  | here folder => exact Or.inl rfl
  | @down outer inner depth hinto _ ih =>
    obtain ⟨k', loc', hinner, hbelow⟩ :
        ∃ k loc, d.Opens inner k loc ∧ d.gain k loc + depth < d.walkBound := by
      rcases ih with rfl | hdeeper
      · obtain ⟨_, _, _, hfolder⟩ := hinto
        obtain ⟨k, loc, hopens⟩ := exists_opens_of_isFolder hfolder
        exact ⟨k, loc, hopens, gain_lt_walkBound (by rw [hopens.folder hd]; simp)⟩
      · exact hdeeper
    obtain ⟨k, loc, hopens, hgain⟩ := hinto.gain_lt hd hinner
    exact Or.inr ⟨k, loc, hopens, by omega⟩

/-- Links used and names gone down together bound how deep directories nest. -/
theorem nests_lt_walkBound (hd : d.WellFormed) (h : d.Nests folder depth) :
    depth < d.walkBound := by
  rcases h.exists_gain_add_lt hd with rfl | ⟨k, loc, -, hbelow⟩
  · exact Nat.mul_pos (Nat.succ_pos _) (Nat.succ_pos _)
  · omega

/-- No walk goes into directories for ever. -/
theorem wellFounded_goesInto (hd : d.WellFormed) :
    WellFounded fun inner outer => d.GoesInto outer inner := by
  have hacc : ∀ depth folder, ¬ d.Nests folder depth →
      Acc (fun inner outer => d.GoesInto outer inner) folder := by
    intro depth
    induction depth with
    | zero => exact fun folder hshort => absurd (.here folder) hshort
    | succ depth ih =>
      exact fun folder hshort => ⟨_, fun inner hinto =>
        ih inner fun hnests => hshort (.down hinto hnests)⟩
  exact ⟨fun folder => hacc d.walkBound folder fun hnests =>
    absurd (nests_lt_walkBound hd hnests) (lt_irrefl _)⟩

/-! ### Calls inside calls -/

/-- What a walk finds at some paths one after the other: a directory is entered by a call, and
nothing is found if that one gives no answer. -/
def childrenBy (d : Disk) (keep : Path → Bool) (call : Path → Option (List Finding)) :
    List Path → Option (List Finding)
  | [] => some []
  | child :: rest => do
    let here ← if d.isFolder child then call child
      else some (if keep child then [.leaf child] else [])
    let others ← d.childrenBy keep call rest
    return here ++ others

/-- A walk through a directory, which enters those in it by calls. -/
def walkBy (d : Disk) (keep : Path → Bool) (call : Path → Option (List Finding)) (folder : Path) :
    Option (List Finding) :=
  match d.childrenOf folder with
  | .error fault => some [.unreadable folder fault]
  | .ok children => d.childrenBy keep call children

/-- A walk by at most so many calls one inside the other, this one counted.  There is no answer
where one more is needed. -/
def walkCalls (d : Disk) (keep : Path → Bool) : Nat → Path → Option (List Finding)
  | 0, _ => none
  | calls + 1, folder => d.walkBy keep (d.walkCalls keep calls) folder

section Calls

variable {call : Path → Option (List Finding)} {children : List Path}

theorem childrenBy_eq_none : d.childrenBy keep call children = none ↔
    ∃ child ∈ children, d.isFolder child = true ∧ call child = none := by
  induction children with
  | nil => simp [childrenBy]
  | cons child rest ih =>
    simp only [List.mem_cons, exists_eq_or_imp, ← ih, childrenBy]
    by_cases hfolder : d.isFolder child = true
    · cases call child <;> cases d.childrenBy keep call rest <;> simp [hfolder]
    · cases d.childrenBy keep call rest <;> simp [hfolder]

/-- If every call gives what is kept of a walk, then so do all of them together. -/
theorem childrenBy_eq_filter {walk : Path → List Finding}
    (hcall : ∀ child ∈ children, d.isFolder child = true →
      call child = some ((walk child).filter (Finding.isKept keep))) :
    d.childrenBy keep call children = some ((children.flatMap fun child =>
      if d.isFolder child then walk child else [.leaf child]).filter (Finding.isKept keep)) := by
  induction children with
  | nil => rfl
  | cons child rest ih =>
    have hrest := ih fun c hc => hcall c (List.mem_cons_of_mem _ hc)
    rw [childrenBy, hrest, List.flatMap_cons, List.filter_append]
    by_cases hfolder : d.isFolder child = true
    · rw [if_pos hfolder, if_pos hfolder, hcall child List.mem_cons_self hfolder]
      rfl
    · cases hkeep : keep child <;> simp [hfolder, hkeep, Finding.isKept]

end Calls

/-- A number of calls does not suffice where directories nest that deep. -/
theorem walkCalls_eq_none : d.walkCalls keep calls folder = none ↔ d.Nests folder calls := by
  induction calls generalizing folder with
  | zero => exact iff_of_true rfl (.here folder)
  | succ calls ih =>
    rw [walkCalls, walkBy]
    constructor
    · intro h
      split at h
      · cases h
      · next children hchildren =>
        obtain ⟨child, hmem, hfolder, hnone⟩ := childrenBy_eq_none.1 h
        exact .down ⟨children, hchildren, hmem, hfolder⟩ (ih.1 hnone)
    · intro h
      cases h with
      | down hinto hnests =>
        obtain ⟨children, hchildren, hmem, hfolder⟩ := hinto
        rw [hchildren]
        exact childrenBy_eq_none.2 ⟨_, hmem, hfolder, ih.2 hnests⟩

/-- Calls that suffice find what a walk of so many steps finds. -/
theorem walkCalls_eq_walkWithin (h : ¬ d.Nests folder calls) :
    d.walkCalls keep calls folder =
      some ((d.walkWithin calls folder).filter (Finding.isKept keep)) := by
  induction calls generalizing folder with
  | zero => exact absurd (.here folder) h
  | succ calls ih =>
    rw [walkCalls, walkBy, walkWithin]
    cases hchildren : d.childrenOf folder with
    | error fault => rfl
    | ok children =>
      exact childrenBy_eq_filter fun child hmem hfolder =>
        ih fun hnests => h (.down ⟨children, hchildren, hmem, hfolder⟩ hnests)

/-- Further steps find nothing more than those that suffice. -/
theorem walkWithin_eq_of_le {steps : Nat} (h : ¬ d.Nests folder calls) (hle : calls ≤ steps) :
    d.walkWithin steps folder = d.walkWithin calls folder := by
  induction calls generalizing folder steps with
  | zero => exact absurd (.here folder) h
  | succ calls ih =>
    obtain ⟨steps, rfl⟩ := Nat.exists_eq_add_of_le' (Nat.le_trans (Nat.le_add_left 1 calls) hle)
    rw [walkWithin, walkWithin]
    cases hchildren : d.childrenOf folder with
    | error fault => rfl
    | ok children =>
      refine List.flatMap_congr fun child hmem => ?_
      by_cases hfolder : d.isFolder child = true
      · rw [if_pos hfolder, if_pos hfolder, ih (fun hnests =>
          h (.down ⟨children, hchildren, hmem, hfolder⟩ hnests)) (Nat.le_of_succ_le_succ hle)]
      · rw [if_neg hfolder, if_neg hfolder]

/-- Calls that suffice for every walk find what a walk finds. -/
theorem walkCalls_eq_leavesBelow (hd : d.WellFormed) (hcalls : d.walkBound ≤ calls)
    (keep : Path → Bool) (folder : Path) :
    d.walkCalls keep calls folder = some ((d.leavesBelow folder).filter (Finding.isKept keep)) := by
  have hshort : ¬ d.Nests folder d.walkBound := fun h =>
    absurd (nests_lt_walkBound hd h) (lt_irrefl _)
  have hshort' : ¬ d.Nests folder calls := fun h =>
    absurd (nests_lt_walkBound hd h) (not_lt.2 hcalls)
  rw [walkCalls_eq_walkWithin hshort', walkWithin_eq_of_le hshort hcalls, leavesBelow]

end Disk

/-! ### Commands that walk -/

/-- A walk that may give no answer, with the leaves that are kept. -/
abbrev Walk := Disk → (Path → Bool) → Path → Option (List Finding)

namespace Sync

/-- What the scan of a project gives, its library being scanned by a walk. -/
def findingsBy (walk : Walk) (d : Disk) (sets : SourceSets) : Option (List Finding) :=
  match sets.library with
  | none => some (rootFindings d sets)
  | some library => do
    let below ← walk d (isSource d [scriptExtension, bytecodeExtension]) library
    return rootFindings d sets ++ below

/-- Lists the source files of a project by a walk. -/
def sourcesBy (walk : Walk) (sets : SourceSets) : Act (Option (List Path)) := do
  match findingsBy walk (← Act.disk) sets with
  | none => return none
  | some found =>
    Finding.report found
    return some (found.filterMap Finding.leaf?)

/-- Takes the snapshot of a project by a walk. -/
def captureBy (walk : Walk) (sets : SourceSets) : Act (Option Snapshot) := do
  match ← sourcesBy walk sets with
  | none => return none
  | some files =>
    let d ← Act.disk
    Snapshot.reportLeftOut d files
    return some (Snapshot.ofList (Snapshot.timesOn d files))

/-- What a poll does once it has its snapshot. -/
def Placement.followUp (m : Placement) (previous current : Snapshot) :
    Act (Placement × Snapshot) := do
  let changes := current.changesSince previous
  if !changes.isEmpty then
    Act.note .info s!"Detected {changes.length} change(s)"
    let _ ← m.apply changes
  return (m, current)

theorem Placement.poll_eq_followUp (m : Placement) (previous : Snapshot) :
    m.poll previous = (do
      let m ← m.refresh
      let current ← Snapshot.capture m.sets
      m.followUp previous current) :=
  rfl

/-- One scan of a watch, its snapshot being taken by a walk. -/
def pollBy (walk : Walk) (m : Placement) (previous : Snapshot) :
    Act (Option (Placement × Snapshot)) := do
  let m ← m.refresh
  match ← captureBy walk m.sets with
  | none => return none
  | some current => some <$> m.followUp previous current

end Sync

/-- Installs all files of a workspace, which are found by a walk. -/
def Bytecode.installBy (walk : Walk) (compiler : Compiler) (workspace destination : Path) :
    Act (Option InstallReport) := do
  match walk (← Act.disk) (fun _ => true) workspace with
  | none => return none
  | some found =>
    Finding.report found
    some <$> installAll compiler workspace destination (found.filterMap Finding.leaf?)

/-- On the disk the walk gives what is kept of all that is found below a directory. -/
def Answers (walk : Walk) (d : Disk) : Prop :=
  ∀ keep folder, walk d keep folder = some ((d.leavesBelow folder).filter (Finding.isKept keep))

theorem Act.bind_apply {α β : Type} (step : Act α) (next : α → Act β) (h : Host) :
    (step >>= next) h = next (step.answer h) (step.after h) :=
  rfl

/-- What comes behind a step sees of it what it does on the host. -/
theorem Act.bind_apply_congr {α β : Type} {step step' : Act α} {h : Host} (next : α → Act β)
    (hstep : step h = step' h) : (step >>= next) h = (step' >>= next) h := by
  rw [bind_apply, bind_apply, answer, after, hstep, answer, after]

namespace Answers

open Sync

variable {walk : Walk} {h : Host}

/-- Where all leaves are kept, the walk gives all that is found. -/
theorem all (hwalk : Answers walk h.disk) (folder : Path) :
    walk h.disk (fun _ => true) folder = some (h.disk.leavesBelow folder) := by
  rw [hwalk, List.filter_eq_self.2]
  intro finding _
  cases finding <;> rfl

theorem sourcesBy_eq (hwalk : Answers walk h.disk) (sets : SourceSets) :
    sourcesBy walk sets h = (some <$> sources sets) h := by
  have hfindings : findingsBy walk h.disk sets = some (findings h.disk sets) := by
    rw [findingsBy, findings]
    cases sets.library with
    | none => simp
    | some library =>
      have hbelow := hwalk (isSource h.disk [scriptExtension, bytecodeExtension]) library
      simp only [hbelow, Option.bind_eq_bind, Option.bind_some]
      rfl
  show (match findingsBy walk h.disk sets with
    | none => (pure none : Act _)
    | some found => _) h = _
  rw [hfindings]
  rfl

theorem captureBy_eq (hwalk : Answers walk h.disk) (sets : SourceSets) :
    captureBy walk sets h = (some <$> Snapshot.capture sets) h :=
  Act.bind_apply_congr _ (hwalk.sourcesBy_eq sets)

theorem pollBy_eq (hwalk : Answers walk h.disk) (m : Placement) (previous : Snapshot) :
    pollBy walk m previous h = (some <$> m.poll previous) h := by
  -- the sets are resolved again before the walk, which changes nothing on the disk
  have hrefreshed : Answers walk (m.refresh.after h).disk := by rwa [Moment.disk_after_refresh]
  have hcapture := hrefreshed.captureBy_eq (m.refresh.answer h).sets
  rw [pollBy, Placement.poll_eq_followUp, map_bind, Act.bind_apply m.refresh,
    Act.bind_apply m.refresh, map_bind, Act.bind_apply_congr _ hcapture, bind_map_left]

theorem installBy_eq (hwalk : Answers walk h.disk) (compiler : Bytecode.Compiler)
    (workspace destination : Path) :
    Bytecode.installBy walk compiler workspace destination h =
      (some <$> Bytecode.install compiler workspace destination) h := by
  show (match walk h.disk (fun _ => true) workspace with
    | none => (pure none : Act _)
    | some found => _) h = _
  rw [hwalk.all]
  rfl

end Answers

open Sync

/-- **Walks come to an end**, whatever links a disk has, a link to a directory above among them.
From any directory a walk goes into others along a well-founded relation and less than `walkBound`
levels deep.  Its calls are nested exactly as deep as directories are, so where that many calls
are at hand it answers: with all it keeps of what is found.  The commands that walk once, which
are the scan, the snapshot, the poll and the install, answer then as well. -/
theorem walks_end (h : Host) (hd : h.disk.WellFormed) :
    (WellFounded fun inner outer => h.disk.GoesInto outer inner) ∧
    (∀ folder depth, h.disk.Nests folder depth → depth < h.disk.walkBound) ∧
    (∀ keep calls folder,
      h.disk.walkCalls keep calls folder = none ↔ h.disk.Nests folder calls) ∧
    ∀ calls, h.disk.walkBound ≤ calls →
      let walk : Walk := fun d keep => d.walkCalls keep calls
      (∀ library, walk h.disk (isSource h.disk [scriptExtension, bytecodeExtension]) library =
        some (libraryFindings h.disk library)) ∧
      (∀ workspace, walk h.disk (fun _ => true) workspace =
        some (h.disk.leavesBelow workspace)) ∧
      (∀ sets, sourcesBy walk sets h = (some <$> sources sets) h) ∧
      (∀ sets, captureBy walk sets h = (some <$> Snapshot.capture sets) h) ∧
      (∀ m previous, pollBy walk m previous h = (some <$> m.poll previous) h) ∧
      ∀ compiler workspace destination,
        Bytecode.installBy walk compiler workspace destination h =
          (some <$> Bytecode.install compiler workspace destination) h := by
  refine ⟨Disk.wellFounded_goesInto hd, fun _ _ => Disk.nests_lt_walkBound hd,
    fun _ _ _ => Disk.walkCalls_eq_none, fun calls hcalls => ?_⟩
  intro walk
  have hwalk : Answers walk h.disk := Disk.walkCalls_eq_leavesBelow hd hcalls
  exact ⟨hwalk _, hwalk.all, hwalk.sourcesBy_eq, hwalk.captureBy_eq, hwalk.pollBy_eq,
    hwalk.installBy_eq⟩

/-- A project whose library holds links to itself and to the directory above. -/
def cyclicHost : Host where
  disk := {
    nodes := [(["p"], .folder), (["p", "lib"], .folder),
      (["p", "lib", "a.rb"], .file "x".toUTF8 1 0o644), (["p", "lib", "above"], .link "/p"),
      (["p", "lib", "again"], .link ".")]
    start := []
    clock := 2 }
  transcript := []

theorem walks_end_cyclicHost :
    let d := cyclicHost.disk
    let walk : Walk := fun d keep => d.walkCalls keep 164
    d.Nests ⟨"/p/lib"⟩ 1 ∧ 1 < d.walkBound ∧ d.walkCalls (fun _ => true) 1 ⟨"/p/lib"⟩ = none ∧
      walk d (fun _ => true) ⟨"/p/lib"⟩ = some (d.leavesBelow ⟨"/p/lib"⟩) ∧
      sourcesBy walk (SourceSets.on d ⟨"/p"⟩) cyclicHost =
        (some <$> sources (SourceSets.on d ⟨"/p"⟩)) cyclicHost := by
  intro d walk
  obtain ⟨-, hbound, hnone, hcalls⟩ := walks_end cyclicHost (by decide +kernel)
  obtain ⟨-, hall, hsources, -⟩ := hcalls 164 (by decide +kernel)
  have hnames : d.names ⟨"/p/lib"⟩ = .ok ["a.rb", "above", "again"] :=
    Disk.names_of_entries ["p", "lib"] rfl rfl rfl (by decide)
  have hinto : d.GoesInto ⟨"/p/lib"⟩ ⟨"/p/lib/again"⟩ :=
    ⟨_, Disk.childrenOf_ok_iff.2 ⟨_, hnames, rfl⟩, by decide, by decide +kernel⟩
  have hnests : d.Nests ⟨"/p/lib"⟩ 1 := .down hinto (.here _)
  exact ⟨hnests, hbound _ _ hnests, (hnone _ _ _).2 hnests, hall _, hsources _⟩

end GemCourier
