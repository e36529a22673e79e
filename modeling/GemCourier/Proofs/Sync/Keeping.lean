/-
GemCourier/Proofs/Sync/Keeping.lean

What a sync leaves alone, however often it is called.

A sync is called to poll, with any snapshot, and to apply changes, any at all.
What the calls do to the disk serves to copy the sources of changes that ask for
it (`AskedFor`), each with the placement that it was applied with: the library
may come and go between the calls, the root and the storage stay.  So nothing is
ever removed, and where no link stands in the storage, a copy is rewritten only
for a change of its own source.  What is reported as deleted keeps its copy.

A poll prints one line with a tag for each change, which tells what came of it on
the disk that the changes before left (`verdicts`).

Main results: `Calls.does`, `components_eq_of_serving`, `calls_keep`.
-/
import GemCourier.Proofs.Disk.Twins
import GemCourier.Proofs.Sync.Settling

namespace GemCourier.Sync

/-- The line has a tag, in bold and in a colour. -/
def isTagged (line : Console.Line) : Bool :=
  line.any fun span => span.style.bold && span.style.colour.isSome

@[simp] theorem isTagged_tagged (tag : String) (colour : Console.Colour) (message : String) :
    isTagged (.tagged tag colour message) = true := rfl

@[simp] theorem isTagged_copied (source destination : String) :
    isTagged (.copied source destination) = false := rfl

namespace Placement

variable {m m' : Placement} {storage source source' p q q' : Path} {h h' : Host}
  {asked : List (Placement × Change)} {changes : List Change} {loc : Location}

/-! ### Calls -/

/-- `Calls m h asked m' h'`: from the placement `m` on the host `h` some calls to poll and to apply
changes lead to `m'` and `h'`; `asked` are the changes that they were about, each with the
placement it was applied with. -/
inductive Calls (m : Placement) (h : Host) : List (Placement × Change) → Placement → Host → Prop
  | none : Calls m h [] m h
  | poll {asked : List (Placement × Change)} {m' : Placement} {h' : Host} (previous : Snapshot) :
      Calls m h asked m' h' →
      Calls m h (asked ++ (m'.changesOn previous h').map (Prod.mk (m'.refresh.answer h')))
        ((m'.poll previous).answer h').1 ((m'.poll previous).after h')
  | apply {asked : List (Placement × Change)} {m' : Placement} {h' : Host}
      (changes : List Change) : Calls m h asked m' h' →
      Calls m h (asked ++ changes.map (Prod.mk m')) m' ((m'.apply changes).after h')

/-- The path is the destination of a change that asks for a copy. -/
def AskedFor (asked : List (Placement × Change)) (q : Path) : Prop :=
  ∃ a ∈ asked, a.2.kind ≠ .deleted ∧ a.1.destination? a.2.path = some q

theorem AskedFor.mono {more : List (Placement × Change)} (hmore : ∀ a ∈ asked, a ∈ more)
    (h : AskedFor asked q) : AskedFor more q := by
  obtain ⟨a, ha, hq⟩ := h
  exact ⟨a, hmore a ha, hq⟩

/-- The deed makes a directory on the way to a destination that is asked for, or writes one. -/
def Answers (asked : List (Placement × Change)) : Deed → Prop
  | .made r => ∃ q, AskedFor asked q ∧ r.components <+: q.components.dropLast
  | .wrote q _ => AskedFor asked q

theorem Answers.mono {more : List (Placement × Change)} (hmore : ∀ a ∈ asked, a ∈ more)
    {deed : Deed} (h : Answers asked deed) : Answers more deed := by
  cases deed with
  | made r =>
    obtain ⟨q, hq, hr⟩ := h
    exact ⟨q, hq.mono hmore, hr⟩
  | wrote q bytes => exact AskedFor.mono hmore h

theorem answers_of_serves {deed : Deed}
    (h : Serves m (changes.filterMap Change.source?) deed) :
    Answers (changes.map (Prod.mk m)) deed := by
  have hasked : ∀ {s q}, s ∈ changes.filterMap Change.source? → m.destination? s = some q →
      AskedFor (changes.map (Prod.mk m)) q := by
    intro s q hs hq
    obtain ⟨c, hc, hcs⟩ := List.mem_filterMap.1 hs
    rw [Change.source?] at hcs
    split at hcs
    · cases hcs
    · next hkind =>
      obtain rfl := Option.some.inj hcs
      exact ⟨(m, c), List.mem_map_of_mem hc, hkind, hq⟩
  cases deed with
  | made r =>
    obtain ⟨s, hs, q, hq, hr⟩ := h
    exact ⟨q, hasked hs hq, hr⟩
  | wrote q bytes =>
    obtain ⟨s, hs, hq⟩ := h
    exact hasked hs hq

/-- Whatever is called, only what is asked for is done. -/
theorem Calls.does (hcalls : Calls m h asked m' h') :
    ∃ deeds, h.disk.Does deeds h'.disk ∧ ∀ deed ∈ deeds, Answers asked deed := by
  -- one more call does what its own changes ask for
  have hstep : ∀ {asked more : List (Placement × Change)} {h' h'' : Host},
      (∃ deeds, h.disk.Does deeds h'.disk ∧ ∀ deed ∈ deeds, Answers asked deed) →
      (∃ deeds, h'.disk.Does deeds h''.disk ∧ ∀ deed ∈ deeds, Answers more deed) →
      ∃ deeds, h.disk.Does deeds h''.disk ∧ ∀ deed ∈ deeds, Answers (asked ++ more) deed := by
    rintro asked more h' h'' ⟨deeds, hdeeds, hall⟩ ⟨later, hlater, hall'⟩
    refine ⟨deeds ++ later, hdeeds.append hlater, fun deed hdeed => ?_⟩
    rcases List.mem_append.1 hdeed with hdeed | hdeed
    · exact (hall deed hdeed).mono fun _ => List.mem_append_left _
    · exact (hall' deed hdeed).mono fun _ => List.mem_append_right _
  induction hcalls with
  | none => exact ⟨[], .nothing _, by simp⟩
  | @poll asked m' h' previous _ ih =>
    obtain ⟨deeds, hdeeds, hserve⟩ := does_poll m' previous h'
    exact hstep ih ⟨deeds, hdeeds, fun deed hdeed => answers_of_serves (hserve deed hdeed)⟩
  | @apply asked m' h' changes _ ih =>
    obtain ⟨deeds, hdeeds, hserve⟩ := does_apply m' changes h'
    exact hstep ih ⟨deeds, hdeeds, fun deed hdeed => answers_of_serves (hserve deed hdeed)⟩

/-- The placement is one of the project at a root, on a storage. -/
structure Serving (m : Placement) (root storage : Path) : Prop where
  fits : m.Fits storage
  root : m.sets.root = root

theorem Serving.refresh {root : Path} (hm : m.Serving root storage) (h : Host) :
    (m.refresh.answer h).Serving root storage where
  fits := fits_refresh hm.fits h
  root := by rw [sets_refresh hm.fits, ← hm.root]; rfl

/-- Calls keep to the project and the storage. -/
theorem Calls.serving {root : Path} (hcalls : Calls m h asked m' h') (hm : m.Serving root storage) :
    m'.Serving root storage ∧ ∀ a ∈ asked, a.1.Serving root storage := by
  have hmapped : ∀ {m' : Placement} {changes : List Change}, m'.Serving root storage →
      ∀ a ∈ changes.map (Prod.mk m'), a.1.Serving root storage := by
    intro m' changes hm' a ha
    obtain ⟨c, -, rfl⟩ := List.mem_map.1 ha
    exact hm'
  induction hcalls with
  | none => exact ⟨hm, by simp⟩
  | @poll asked m' h' previous _ ih =>
    have hrefreshed := ih.1.refresh h'
    have hanswer : ((m'.poll previous).answer h').1 = m'.refresh.answer h' := by
      rw [(Moment.poll_eq m' previous h').1]
    rw [hanswer]
    exact ⟨hrefreshed, fun a ha => (List.mem_append.1 ha).elim (ih.2 a) (hmapped hrefreshed a)⟩
  | apply changes _ ih =>
    exact ⟨ih.1, fun a ha => (List.mem_append.1 ha).elim (ih.2 a) (hmapped ih.1 a)⟩

/-! ### Destinations of one project -/

/-- With a library or without, a destination of a project tells its source. -/
theorem components_eq_of_serving {root : Path} (hm : m.Serving root storage)
    (hm' : m'.Serving root storage) (hq : m.destination? source = some q)
    (hq' : m'.destination? source' = some q') (h : q.components = q'.components) :
    source.components = source'.components :=
  components_eq_of_destinations hm.fits.buckets hm'.fits.buckets (hm.root.trans hm'.root.symm)
    (fun l l' hl hl' => by
      rw [hm.fits.library l hl, hm'.fits.library l' hl', hm.root, hm'.root]) hq hq' h

/-- Destinations go on from the storage by names. -/
theorem exists_tail_of_destination? (hbuckets : m.buckets = Buckets.on storage)
    (hq : m.destination? source = some q) :
    ∃ tail : List String, q.components = storage.components ++ tail.map .name := by
  have hhome := components_home storage
  have hlib := components_lib storage
  rw [← hbuckets] at hhome hlib
  rcases exists_of_destination? hq with ⟨_, names, -, -, -, hc⟩ | ⟨n, -, hc⟩
  · exact ⟨"lib" :: names, by rw [hc, hlib]; simp⟩
  · exact ⟨["home", n], by rw [hc, hhome]; simp⟩

/-- Where no link stands in the storage, the places of copies tell their sources. -/
theorem components_eq_of_reaches {d : Disk} {root : Path} (hfree : d.LinkFreeBelow storage)
    (hm : m.Serving root storage) (hm' : m'.Serving root storage)
    (hq : m.destination? source = some q) (hq' : m'.destination? source' = some q')
    (hloc : d.Reaches q loc) (hloc' : d.Reaches q' loc) :
    source.components = source'.components := by
  obtain ⟨tail, hc⟩ := exists_tail_of_destination? hm.fits.buckets hq
  obtain ⟨tail', hc'⟩ := exists_tail_of_destination? hm'.fits.buckets hq'
  obtain rfl : tail = tail' := Disk.names_unique hfree hc hc' hloc hloc'
  exact components_eq_of_serving hm hm' hq hq' (hc.trans hc'.symm)

/-! ### Lines with tags -/

/-- The line with a tag that is printed for a change on a host: its kind, or that its copy
failed. -/
def verdict (m : Placement) (c : Change) (h : Host) : Console.Line :=
  if c.kind = .deleted then
    .tagged c.kind.tag c.kind.colour s!"{c.path} (manual cleanup may be needed)"
  else match (m.copyFile c.path).answer h with
    | .ok _ => .tagged c.kind.tag c.kind.colour c.path.text
    | .error e => .tagged "FAILED" .red (e.message ((m.copyFile c.path).after h).disk)

/-- The lines with tags for some changes, each on the host that the ones before it left. -/
def verdicts (m : Placement) : List Change → Host → List Console.Line
  | [], _ => []
  | c :: rest, h => m.verdict c h :: m.verdicts rest ((m.applyOne c).after h)

theorem printed_after_applyOne {c : Change}
    (hc : ∀ p, c.source? = some p → ∃ q, m.destination? p = some q) (h : Host) :
    ∃ lines, ((m.applyOne c).after h).printed = h.printed ++ lines ∧
      lines.filter isTagged = [m.verdict c h] := by
  by_cases hdeleted : c.kind = .deleted
  · refine ⟨[m.verdict c h], ?_, ?_⟩
    · simp [applyOne, verdict, hdeleted]
    · simp [verdict, hdeleted]
  · obtain ⟨q, hq⟩ := hc c.path (if_neg hdeleted)
    rw [after_applyOne_of_asked hdeleted]
    rcases printed_after_copyFile hq h with ⟨hcopied, hprinted⟩ | ⟨e, hfailed, hprinted⟩
    · refine ⟨[.copied c.path.text q.text, m.verdict c h], ?_, ?_⟩
      · simp [applyUpsert, verdict, hcopied, hprinted, hdeleted]
      · simp [verdict, hcopied, hdeleted]
    · refine ⟨[m.verdict c h], ?_, ?_⟩
      · simp [applyUpsert, verdict, hfailed, hprinted, hdeleted]
      · simp [verdict, hfailed, hdeleted]

theorem printed_after_apply
    (hchanges : ∀ c ∈ changes, ∀ p, c.source? = some p → ∃ q, m.destination? p = some q)
    (h : Host) :
    ∃ lines, ((m.apply changes).after h).printed = h.printed ++ lines ∧
      lines.filter isTagged = m.verdicts changes h := by
  induction changes generalizing h with
  | nil => exact ⟨[], by simp [apply], rfl⟩
  | cons c rest ih =>
    obtain ⟨here, hhere, htag⟩ := printed_after_applyOne (hchanges c (by simp)) h
    obtain ⟨lines, hlines, htags⟩ :=
      ih (fun c hc => hchanges c (by simp [hc])) ((m.applyOne c).after h)
    refine ⟨here ++ lines, by simp [apply, hlines, hhere], ?_⟩
    rw [List.filter_append, htag, htags, verdicts, List.singleton_append]

/-- A poll prints one line with a tag for each change, in order. -/
theorem printed_after_poll (hfits : m.Fits storage) (hd : h.disk.WellFormed)
    (previous : Snapshot) :
    let refreshed := m.refresh.answer h
    ∃ lines, ((m.poll previous).after h).printed = h.printed ++ lines ∧
      lines.filter isTagged = refreshed.verdicts (m.changesOn previous h)
        ((refreshed.detect previous).after (m.refresh.after h)) := by
  intro refreshed
  obtain ⟨-, hafter⟩ := Moment.poll_eq m previous h
  obtain ⟨lines, hprinted, htags⟩ := printed_after_apply
    (destination_of_changesSince (fits_refresh hfits h) hd previous)
    ((refreshed.detect previous).after (m.refresh.after h))
  refine ⟨lines, ?_, htags⟩
  rw [hafter, hprinted, detect_keeps Act.aloof_printed.note refreshed previous,
    refresh_keeps Act.aloof_printed.note m]

/-! ### Any number of calls -/

/-- **What calls keep.**  Whatever a sync is called for, and however often, nothing is removed or
turned into something else.  A location that differs afterwards is that of a destination of a
change that asked for a copy, where a file was written, or one on the way to it, where there was
nothing and a directory was made.  The copy of a path that was reported as deleted and not
otherwise stays the file that it was.  And a poll that comes then answers with the snapshot that
it took; if it finds no change it leaves the disk alone and prints nothing, and else it prints one
line with a tag for each change, in order. -/
theorem calls_keep {root : Path} (hm : m.Serving root storage) (hd : h.disk.WellFormed)
    (hfree : h.disk.LinkFreeBelow storage) (hcalls : Calls m h asked m' h') :
    h.disk.Grows h'.disk ∧
    (∀ loc, h'.disk.node? loc ≠ h.disk.node? loc → ∃ q, AskedFor asked q ∧
      (h.disk.Reaches q loc ∧ (∃ bytes t mode, h'.disk.node? loc = some (.file bytes t mode)) ∨
        h.disk.node? loc = none ∧ h'.disk.node? loc = some .folder ∧
          ∃ r : Path, r.components <+: q.components.dropLast ∧ h.disk.Reaches r loc)) ∧
    (∀ (m₁ : Placement) (p q : Path) (loc : Location), m₁.Serving root storage →
      m₁.destination? p = some q → h.disk.Reaches q loc →
      (∀ a ∈ asked, a.2.path.components = p.components → a.2.kind = .deleted) →
      ∀ bytes t mode, h'.disk.node? loc = some (.file bytes t mode) ↔
        h.disk.node? loc = some (.file bytes t mode)) ∧
    ∀ previous : Snapshot,
      let refreshed := m'.refresh.answer h'
      let changes := m'.changesOn previous h'
      let start := (refreshed.detect previous).after (m'.refresh.after h')
      let after := (m'.poll previous).after h'
      ((m'.poll previous).answer h').2 = Snapshot.on h'.disk refreshed.sets ∧
      (changes = [] → after.disk = h'.disk ∧ after.printed = h'.printed) ∧
      start.disk = h'.disk ∧
      ∃ lines, after.printed = h'.printed ++ lines ∧
        lines.filter isTagged = refreshed.verdicts changes start := by
  obtain ⟨deeds, hdeeds, hall⟩ := hcalls.does
  obtain ⟨hm', hserving⟩ := hcalls.serving hm
  refine ⟨hdeeds.grows, fun loc hchanged => ?_, ?_, fun previous => ?_⟩
  · rcases hdeeds.node?_eq_or loc with
      hsame | ⟨r, hr, hreaches, hnone, hfolder⟩ | ⟨q, bytes, t, mode, hq, hreaches, hfile⟩
    · exact absurd hsame hchanged
    · obtain ⟨q, hq, hinitial⟩ := hall _ hr
      exact ⟨q, hq, Or.inr ⟨hnone, hfolder, r, hinitial, hreaches⟩⟩
    · exact ⟨q, hall _ hq, Or.inl ⟨hreaches, bytes, t, mode, hfile⟩⟩
  · intro m₁ p q loc hm₁ hq hreaches hdeleted bytes t mode
    refine hdeeds.file_iff fun q' b hq' hreaches' => ?_
    -- what is written there is a copy of the same path, which is not reported as deleted
    obtain ⟨a, ha, hkind, hdestination⟩ := hall _ hq'
    exact hkind (hdeleted a ha (components_eq_of_reaches hfree (hserving a ha) hm₁ hdestination hq
      hreaches' hreaches))
  · intro refreshed changes start after
    have hstart : start.disk = h'.disk :=
      (Moment.disk_after_detect refreshed _).trans (Moment.disk_after_refresh m' h')
    obtain ⟨lines, hprinted, htags⟩ :=
      printed_after_poll hm'.fits (hdeeds.wellFormed hd) previous
    refine ⟨?_, ?_, hstart, ?_⟩
    · rw [(Moment.poll_eq m' previous h').1]
    · intro hnil
      exact (poll_of_settled hnil).2
    · exact ⟨lines, hprinted, htags⟩

/-- A host with a project without files, and on its storage the copy of a script. -/
def staleHost : Host where
  disk := {
    nodes := [(["p"], .folder), (["s"], .folder), (["s", "home"], .folder),
      (["s", "home", "a.rb"], .file "x".toUTF8 1 0o644)]
    start := []
    clock := 2 }
  transcript := []

/-- A poll that finds a script deleted prints that once, and its copy stays. -/
theorem calls_keep_staleHost :
    let m : Placement := ⟨⟨⟨"/p"⟩, none⟩, Buckets.on ⟨"/s"⟩⟩
    let after := (m.poll ⟨[(⟨"/p/a.rb"⟩, 1)]⟩).after staleHost
    after.disk.node? ["s", "home", "a.rb"] = some (.file "x".toUTF8 1 0o644) ∧
      ∃ lines, after.printed = staleHost.printed ++ lines ∧ lines.filter isTagged =
        [.tagged "DELETED" .red "/p/a.rb (manual cleanup may be needed)"] := by
  intro m after
  have hlink : ∀ loc, staleHost.disk.link? loc = none :=
    fun loc => Disk.link?_eq_none (by simp [staleHost]) loc
  have hfree : staleHost.disk.LinkFreeBelow ⟨"/s"⟩ := fun _ _ _ => hlink _
  have hm : m.Serving ⟨"/p"⟩ ⟨"/s"⟩ := ⟨⟨by rintro _ ⟨⟩, rfl⟩, rfl⟩
  have hchanges : m.changesOn ⟨[(⟨"/p/a.rb"⟩, 1)]⟩ staleHost = [⟨.deleted, ⟨"/p/a.rb"⟩⟩] := by
    have hnames : staleHost.disk.names ⟨"/p"⟩ = .ok [] :=
      Disk.names_of_entries ["p"] rfl rfl rfl .nil
    have hsources : sourcesOn staleHost.disk ⟨⟨"/p"⟩, none⟩ = [] := by
      rw [sourcesOn, findings, rootFindings, Disk.childrenOf, hnames]
      rfl
    have hsets : (m.refresh.answer staleHost).sets = ⟨⟨"/p"⟩, none⟩ := by
      rw [sets_refresh hm.fits]
      decide +kernel
    rw [changesOn, hsets, Snapshot.on, hsources]
    decide +kernel
  constructor
  · have hcalls := Calls.poll (m := m) ⟨[(⟨"/p/a.rb"⟩, 1)]⟩ (.none (h := staleHost))
    rw [hchanges] at hcalls
    obtain ⟨-, -, hcopy, -⟩ := calls_keep hm (by decide) hfree hcalls
    have hreaches : staleHost.disk.Reaches ⟨"/s/home/a.rb"⟩ ["s", "home", "a.rb"] :=
      (Disk.reaches_iff_landing hlink).2 (by decide)
    exact (hcopy m ⟨"/p/a.rb"⟩ ⟨"/s/home/a.rb"⟩ _ hm (by decide) hreaches (by simp) _ _ _).2
      (by decide +kernel)
  · obtain ⟨-, -, -, hpoll⟩ := calls_keep hm (by decide) hfree .none
    obtain ⟨-, -, -, lines, hprinted, htags⟩ := hpoll ⟨[(⟨"/p/a.rb"⟩, 1)]⟩
    refine ⟨lines, hprinted, ?_⟩
    rw [htags, hchanges]
    decide +kernel

end Placement

end GemCourier.Sync
