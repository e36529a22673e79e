/-
GemCourier/Proofs/Remote/Confinement.lean

A download stays inside the directory it is given.

What a source lists is not to be trusted: a name can be any text.  A name that
passes the test reads as one component, a name, so a local path only ever grows
by names, whatever is listed at whatever depth.  All files are written under
such paths, and all directories are made under them or at parts of the path of
the directory that was given.  Unless a symbolic link leads away from there,
everything beside that directory stays as it was.

A source that lists directories without end is met up to any length of paths by
`upTo`, which walking down ends on.

Main result: `download_confined`.
-/
import GemCourier.Proofs.Remote.Entries
import GemCourier.Proofs.Remote.Spelling

namespace GemCourier.Remote

/-! ### Deeds of a download -/

namespace Source

variable {source : Source} {root : Path}

theorem does_accountForFile {allowed : Deed → Prop} {remotePath : String} {localPath : Path}
    (hmade : ∀ p : Path, p.components <+: localPath.components.dropLast → allowed (.made p))
    (hwrote : ∀ bytes, allowed (.wrote localPath bytes)) :
    (source.accountForFile remotePath localPath).Does allowed := by
  have hdownload : (source.downloadFile remotePath localPath).Does allowed := by
    refine .bind (.note _ _) fun _ => .bind (.of_keeps fun h => disk_after_ask _ h) fun outcome => ?_
    cases outcome with
    | error cause => exact .pure _
    | ok bytes => exact does_save hmade (hwrote bytes)
  refine .bind hdownload fun answer => ?_
  cases answer with
  | ok n => exact .bind (.note _ _) fun _ => .pure _
  | error e => exact .bind .disk fun _ => .bind (.note _ _) fun _ => .pure _

/-- Whatever is listed below a place that goes on from the root by names, downloading it stays
within the root. -/
theorem does_downloadEntries (folder : String) (ends : source.Ends folder) (place : Path)
    (entries : List Entry)
    (listed : ∀ e ∈ entries, ∃ all, (source.list folder).outcome = .ok all ∧ e ∈ all)
    (hplace : ∃ names : List String, place.components = root.components ++ names.map .name) :
    (source.downloadEntries folder ends place entries listed).Does (Deed.Within root) := by
  have hchild : ∀ {place : Path} {name : String}, isPlainName name = true →
      (∃ names : List String, place.components = root.components ++ names.map .name) →
      ∃ names : List String, names ≠ [] ∧
        (place.child name).components = root.components ++ names.map .name := by
    rintro place name hname ⟨names, hnames⟩
    obtain ⟨core, hcore⟩ := isPlainName_iff.1 hname
    exact ⟨names ++ [core], by simp, by rw [hcore.components_child, hnames]; simp⟩
  have hasks : ∀ folder, (source.askListing folder).Does (Deed.Within root) :=
    fun folder => .of_keeps fun h => disk_after_askListing _ folder h
  have hfollowed : ∀ {here others : Act FetchReport}, here.Does (Deed.Within root) →
      others.Does (Deed.Within root) → (followed here others).Does (Deed.Within root) :=
    fun hhere hothers => .bind hhere fun _ => .bind hothers fun _ => .pure _
  -- the local place of every directory on the way down goes on from the root by names
  refine downloadEntries_rule (P := fun _ place _ step =>
    (∃ names : List String, place.components = root.components ++ names.map .name) →
      step.Does (Deed.Within root)) ?done ?refused ?file ?unlisted ?entered
    folder ends place entries listed hplace
  case done =>
    intro folder place _
    exact .pure _
  case refused =>
    intro folder place e rest others _ hothers hplace
    exact hfollowed (.bind (.note _ _) fun _ => .pure _) (hothers hplace)
  case file =>
    intro folder place e rest others hname _ hothers hplace
    obtain ⟨names, hne, hnames⟩ := hchild hname hplace
    refine hfollowed (does_accountForFile ?_ ?_) (hothers hplace)
    · intro p hp
      exact Deed.within_made _ (hnames ▸ hp.trans (List.dropLast_prefix _))
    · exact fun bytes => ⟨names, hne, hnames⟩
  case unlisted =>
    intro folder place e rest others cause _ _ _ hothers hplace
    refine hfollowed (.seqRight (hasks _) ?_) (hothers hplace)
    exact .bind .disk fun _ => .bind (.note _ _) fun _ => .pure _
  case entered =>
    intro folder place e rest others inner below hname _ _ hbelow hothers hplace
    obtain ⟨names, _, hnames⟩ := hchild hname hplace
    exact hfollowed (.seqRight (hasks _) (hbelow ⟨names, hnames⟩)) (hothers hplace)

theorem does_download (folder : String) (ends : source.Ends folder) (root : Path) :
    (source.download folder ends root).Does (Deed.Within root) := by
  refine .bind (.of_keeps fun h => disk_after_askListing _ folder h) fun _ => ?_
  split
  · exact .pure _
  · exact .bind (does_downloadEntries _ _ _ _ _ ⟨[], by simp⟩) fun _ => .pure _

/-! ### Sources without end -/

/-- The source as it is met up to a length of paths, beyond which nothing is listed. -/
def upTo (source : Source) (n : Nat) : Source where
  list path := if extent path ≤ n then source.list path else ⟨.error (.status path 404), []⟩
  fetch := source.fetch

/-- Walking down ends on every source that is met up to a length, so what a download does on
the way down a source without end stays within the root too. -/
theorem ends_upTo (source : Source) (n : Nat) (folder : String) : (source.upTo n).Ends folder := by
  have hfails : ∀ path, n < extent path → ∃ e, ((source.upTo n).list path).outcome = .error e := by
    intro path hlong
    refine ⟨.status path 404, ?_⟩
    have hover : ¬ extent path ≤ n := by omega
    simp [upTo, hover]
  exact RemoteTree.ends ⟨source.upTo n, n, hfails⟩ folder

/-- A source that lists in every directory a directory and a name that leads upwards. -/
def endless : Source where
  list path := ⟨.ok [.below path "d" .directory, .below path "../x" .file], []⟩
  fetch _ := ⟨.ok ByteArray.empty, []⟩

/-! ### Beside the root -/

/-- What deeds within a root do to a location that does not lie below it: nothing, unless a
part of the path of the root leads there, where a directory may be made. -/
theorem node?_of_within {d d' : Disk} {deeds : List Deed} (hdeeds : d.Does deeds d')
    (hwithin : ∀ deed ∈ deeds, Deed.Within root deed) (hfree : d.LinkFreeBelow root)
    {loc : Location}
    (hbeside : ∀ base names, d.Reaches root base → names ≠ [] → loc ≠ base ++ names) :
    d'.node? loc = d.node? loc ∨ d.node? loc = none ∧ d'.node? loc = some .folder ∧
      ∃ p : Path, p.components <+: root.components ∧ d.Reaches p loc := by
  have hwrote : ∀ {p : Path} {names : List String}, names ≠ [] →
      p.components = root.components ++ names.map .name → ¬ d.Reaches p loc := by
    intro p names hne hnames hreaches
    obtain ⟨base, hbase, hloc⟩ := (Disk.reaches_below hfree hnames).1 hreaches
    exact hbeside base names hbase hne hloc
  rcases hdeeds.node?_eq_or loc with
    hsame | ⟨p, hp, hreaches, hnone, hfolder⟩ | ⟨p, bytes, _, _, hp, hreaches, _⟩
  · exact Or.inl hsame
  · refine Or.inr ⟨hnone, hfolder, p, ?_, hreaches⟩
    rcases hwithin _ hp with hpart | ⟨names, hnames⟩
    · exact hpart
    · -- made under the root and yet not below it, so it is the root itself
      by_cases hnil : names = []
      · rw [hnames, hnil]
        simp
      · exact absurd hreaches (hwrote hnil hnames)
  · obtain ⟨names, hne, hnames⟩ := hwithin _ hp
    exact absurd hreaches (hwrote hne hnames)

/-- Whatever a source lists, its download writes files only under the path it is given, and
makes directories only there and at the parts of that path.  Nothing is removed, and if no
symbolic link stands at or below the place the path leads to, nothing that does not lie below
it changes, save that missing parts of the path become directories. -/
theorem download_confined (source : Source) (folder : String) (ends : source.Ends folder)
    (root : Path) (h : Host) :
    let after := ((source.download folder ends root).after h).disk
    (∃ deeds, h.disk.Does deeds after ∧ ∀ deed ∈ deeds, deed.Within root) ∧
      h.disk.Grows after ∧
      (h.disk.LinkFreeBelow root → ∀ loc,
        (∀ base names, h.disk.Reaches root base → names ≠ [] → loc ≠ base ++ names) →
        after.node? loc = h.disk.node? loc ∨
          h.disk.node? loc = none ∧ after.node? loc = some .folder ∧
            ∃ p : Path, p.components <+: root.components ∧ h.disk.Reaches p loc) := by
  intro after
  obtain ⟨deeds, hdeeds, hwithin⟩ := does_download folder ends root h
  refine ⟨⟨deeds, hdeeds, hwithin⟩, hdeeds.grows, ?_⟩
  intro hfree loc hbeside
  exact node?_of_within hdeeds hwithin hfree hbeside

/-- Nothing comes to stand beside the mirror of a source without end. -/
theorem download_confined_endless :
    let d : Disk := ⟨[(["home"], .folder)], ["home"], 0⟩
    let after := (((endless.upTo 9).download "t" (ends_upTo _ _ _) ⟨"m/"⟩).after ⟨d, []⟩).disk
    (∃ deeds, d.Does deeds after ∧ ∀ deed ∈ deeds, deed.Within ⟨"m/"⟩) ∧
      after.node? ["home", "x"] = none := by
  intro d after
  obtain ⟨hdeeds, -, hbeside⟩ :=
    download_confined (endless.upTo 9) "t" (ends_upTo _ _ _) ⟨"m/"⟩ ⟨d, []⟩
  have hlink : ∀ loc, d.link? loc = none := by
    intro loc
    by_cases hroot : loc = []
    · subst hroot
      rfl
    · by_cases hhome : ["home"] = loc <;> simp [d, Disk.link?, Disk.node?, hroot, hhome]
  have hmirror : ∀ base, d.Reaches ⟨"m/"⟩ base ↔ base = ["home", "m"] := by
    intro base
    exact Disk.leads_names ["m"] fun ns => hlink _
  have hx : ∀ base names, d.Reaches ⟨"m/"⟩ base → names ≠ [] → ["home", "x"] ≠ base ++ names := by
    intro base names hbase _
    rw [(hmirror base).1 hbase]
    simp
  refine ⟨hdeeds, ?_⟩
  rcases hbeside (fun base _ names => hlink _) ["home", "x"] hx with
    hsame | ⟨_, _, p, hp, hreaches⟩
  · exact hsame
  · -- the parts of the path are none of it and all of it
    rw [Disk.Reaches] at hreaches
    have hparts : p.components = [] ∨ p.components = (Path.mk "m/").components := by
      have hm : (Path.mk "m/").components = [.name "m"] := by decide
      rw [hm] at hp ⊢
      rcases List.prefix_cons_iff.1 hp with hnil | ⟨rest, hcons, hrest⟩
      · exact Or.inl hnil
      · rw [List.prefix_nil.1 hrest] at hcons
        exact Or.inr hcons
    rcases hparts with hparts | hparts
    · rw [hparts] at hreaches
      cases hreaches
    · rw [hparts] at hreaches
      exact absurd ((hmirror _).1 hreaches) (by decide)

end Source

end GemCourier.Remote
