/-
GemCourier/Proofs/Project/Settings.lean

Which value a setting takes, and that it is a good one.

A setting has three sources: the text its flag is given, its key in the project file,
and its default.  `Effective` says which of them counts, without a word on any other
setting.  The keys of the file are read one after the other into fields of their own, so
a field holds what was read from the value of its key (`Takes.setEntries`), whatever the
other keys are.

A repository comes from a text that was checked, on the command line and in the file
alike.  An interval comes from a number below 2^64 on the command line and from one
below 2^63 in the file, and neither is zero.

Main results: `ProjectFile.sets_of_parse`, `Project.settings_effective`.
-/
import GemCourier.Proofs.CommandLine.Lines
import GemCourier.Proofs.Path.Joining
import GemCourier.Proofs.Remote.Repositories
import GemCourier.Proofs.Yaml.Numbers
import GemCourier.Project.Settings

namespace GemCourier

/-! ### Intervals -/

theorem Interval.ofMilliseconds?_eq_some {n : Nat} {v : Interval} :
    ofMilliseconds? n = some v ↔ v.milliseconds = n := by
  rw [ofMilliseconds?]
  constructor
  · intro h
    split at h
    · cases h
      rfl
    · cases h
  · rintro rfl
    exact dif_pos v.positive

/-! ### Keys of the project file -/

namespace ProjectFile

/-- The value that stands last under a key. -/
def valueOf? (key : String) : List (Yaml.Node × Yaml.Node) → Option Yaml.Node
  | [] => none
  | entry :: rest =>
    (valueOf? key rest).or (if entry.1.text? = some key then some entry.2 else none)

/-- A value read as a repository. -/
def repository? (value : Yaml.Node) : Option Repository :=
  value.text?.bind CommandLine.repositoryOf?

/-- A value read as a path. -/
def path? (value : Yaml.Node) : Option Path :=
  value.text?.map Path.mk

/-- A value read as an interval. -/
def interval? : Yaml.Node → Option Interval
  | .scalar (.integer n) => Interval.ofMilliseconds? n.toNat
  | _ => none

variable {f g : ProjectFile} {key : String} {value : Yaml.Node}

/-- Taking in a value sets one field to what is read from it; a key that is not known does
nothing. -/
inductive Took (f : ProjectFile) : String → Yaml.Node → ProjectFile → Prop
  | repository {value : Yaml.Node} {r : Repository} :
      repository? value = some r → f.Took "repository" value { f with repository := some r }
  | branch {value : Yaml.Node} {s : String} :
      value.text? = some s → f.Took "branch" value { f with branch := some s }
  | gemsDir {value : Yaml.Node} {s : String} :
      value.text? = some s → f.Took "gems_dir" value { f with gemsDir := some s }
  | output {value : Yaml.Node} {p : Path} :
      path? value = some p → f.Took "output" value { f with output := some p }
  | storage {value : Yaml.Node} {p : Path} :
      path? value = some p → f.Took "storage" value { f with storage := some p }
  | pollInterval {value : Yaml.Node} {v : Interval} :
      interval? value = some v → f.Took "poll_interval_ms" value { f with pollInterval := some v }
  | unknown {key : String} {value : Yaml.Node} : key ∉ knownKeys → f.Took key value f

theorem text?_of_textValue {s : String} (h : textValue key value = .ok s) :
    value.text? = some s := by
  rw [textValue] at h
  split at h
  · next s' hs' =>
    cases h
    exact hs'
  · cases h

theorem path?_of_textValue {s : String} (h : textValue key value = .ok s) :
    path? value = some ⟨s⟩ := by
  rw [path?, text?_of_textValue h, Option.map_some]

theorem repository?_of_repositoryValue {r : Repository} (h : repositoryValue key value = .ok r) :
    repository? value = some r := by
  rw [repositoryValue] at h
  cases hs : textValue key value with
  | error e => rw [hs] at h; cases h
  | ok s =>
    rw [hs] at h
    dsimp only [Except.bind] at h
    rw [repository?, text?_of_textValue hs, Option.bind_some, CommandLine.repositoryOf?]
    split at h
    · next r' hparse =>
      cases h
      rw [hparse]
      rfl
    · cases h

theorem interval?_of_positiveValue {v : Interval} (h : positiveValue key value = .ok v) :
    interval? value = some v := by
  dsimp only [positiveValue] at h
  split at h
  · next v' hv' =>
    cases h
    exact hv'
  · cases h

theorem took_of_set (h : f.set key value = .ok g) : f.Took key value g := by
  have hmap : ∀ {β : Type} {step : Except ProjectFileError β} {next : β → ProjectFile},
      step.map next = .ok g → ∃ b, step = .ok b ∧ g = next b := by
    intro β step next hstep
    cases step with
    | error e => cases hstep
    | ok b => exact ⟨b, rfl, (Except.ok.inj hstep).symm⟩
  unfold set at h
  split at h
  · obtain ⟨r, hr, rfl⟩ := hmap h
    exact .repository (repository?_of_repositoryValue hr)
  · obtain ⟨s, hs, rfl⟩ := hmap h
    exact .branch (text?_of_textValue hs)
  · obtain ⟨s, hs, rfl⟩ := hmap h
    exact .gemsDir (text?_of_textValue hs)
  · obtain ⟨s, hs, rfl⟩ := hmap h
    exact .output (path?_of_textValue hs)
  · obtain ⟨s, hs, rfl⟩ := hmap h
    exact .storage (path?_of_textValue hs)
  · obtain ⟨v, hv, rfl⟩ := hmap h
    exact .pollInterval (interval?_of_positiveValue hv)
  · cases h
    refine .unknown ?_
    simp_all [knownKeys]

/-- The field takes what is read from the value of the key, and no other key changes it. -/
def Takes {α : Type} (key : String) (read : Yaml.Node → Option α)
    (field : ProjectFile → Option α) : Prop :=
  ∀ {f g : ProjectFile} {other : String} {value : Yaml.Node}, f.set other value = .ok g →
    (other = key ∧ ∃ a, read value = some a ∧ field g = some a) ∨
      (other ≠ key ∧ field g = field f)

theorem ne_of_unknown {known : String} (h : key ∉ knownKeys) (hknown : known ∈ knownKeys) :
    key ≠ known :=
  fun hsame => h (hsame ▸ hknown)

theorem takes_repository : Takes "repository" repository? ProjectFile.repository := by
  intro f g other value h
  cases took_of_set h with
  | repository hr => exact Or.inl ⟨rfl, _, hr, rfl⟩
  | unknown hunknown => exact Or.inr ⟨ne_of_unknown hunknown (by decide), rfl⟩
  | _ => exact Or.inr ⟨by decide, rfl⟩

theorem takes_branch : Takes "branch" Yaml.Node.text? ProjectFile.branch := by
  intro f g other value h
  cases took_of_set h with
  | branch hs => exact Or.inl ⟨rfl, _, hs, rfl⟩
  | unknown hunknown => exact Or.inr ⟨ne_of_unknown hunknown (by decide), rfl⟩
  | _ => exact Or.inr ⟨by decide, rfl⟩

theorem takes_gemsDir : Takes "gems_dir" Yaml.Node.text? ProjectFile.gemsDir := by
  intro f g other value h
  cases took_of_set h with
  | gemsDir hs => exact Or.inl ⟨rfl, _, hs, rfl⟩
  | unknown hunknown => exact Or.inr ⟨ne_of_unknown hunknown (by decide), rfl⟩
  | _ => exact Or.inr ⟨by decide, rfl⟩

theorem takes_output : Takes "output" path? ProjectFile.output := by
  intro f g other value h
  cases took_of_set h with
  | output hp => exact Or.inl ⟨rfl, _, hp, rfl⟩
  | unknown hunknown => exact Or.inr ⟨ne_of_unknown hunknown (by decide), rfl⟩
  | _ => exact Or.inr ⟨by decide, rfl⟩

theorem takes_storage : Takes "storage" path? ProjectFile.storage := by
  intro f g other value h
  cases took_of_set h with
  | storage hp => exact Or.inl ⟨rfl, _, hp, rfl⟩
  | unknown hunknown => exact Or.inr ⟨ne_of_unknown hunknown (by decide), rfl⟩
  | _ => exact Or.inr ⟨by decide, rfl⟩

theorem takes_pollInterval : Takes "poll_interval_ms" interval? ProjectFile.pollInterval := by
  intro f g other value h
  cases took_of_set h with
  | pollInterval hv => exact Or.inl ⟨rfl, _, hv, rfl⟩
  | unknown hunknown => exact Or.inr ⟨ne_of_unknown hunknown (by decide), rfl⟩
  | _ => exact Or.inr ⟨by decide, rfl⟩

/-- Behind some entries a field holds what is read from the value of its key, or what it held
before if there is none. -/
theorem Takes.setEntries {α : Type} {read : Yaml.Node → Option α}
    {field : ProjectFile → Option α} (htakes : Takes key read field)
    {entries : List (Yaml.Node × Yaml.Node)} (h : f.setEntries entries = .ok g) :
    (valueOf? key entries = none ∧ field g = field f) ∨
      ∃ value a, valueOf? key entries = some value ∧ read value = some a ∧ field g = some a := by
  induction entries generalizing f with
  | nil =>
    cases h
    exact Or.inl ⟨rfl, rfl⟩
  | cons entry rest ih =>
    rw [ProjectFile.setEntries] at h
    cases hentry : f.setEntry entry with
    | error e => rw [hentry] at h; cases h
    | ok mid =>
      rw [hentry] at h
      rw [valueOf?]
      rcases ih h with ⟨hnone, hsame⟩ | ⟨value, a, hvalue, hread, ha⟩
      · -- no later entry has the key, so this one counts if it has
        rw [hnone, hsame, Option.none_or]
        rw [setEntry] at hentry
        split at hentry
        · next other hother =>
          rcases htakes hentry with ⟨rfl, a, hread, ha⟩ | ⟨hne, hkept⟩
          · exact Or.inr ⟨entry.2, a, if_pos hother, hread, ha⟩
          · exact Or.inl ⟨if_neg fun hkey => hne (Option.some.inj (hother.symm.trans hkey)), hkept⟩
        · next hnotext =>
          cases hentry
          exact Or.inl ⟨if_neg fun hkey => by simp [hnotext] at hkey, rfl⟩
      · exact Or.inr ⟨value, a, by rw [hvalue, Option.some_or], hread, ha⟩

/-- The fields of the file hold what entries say, each by its own key. -/
structure Sets (f : ProjectFile) (entries : List (Yaml.Node × Yaml.Node)) : Prop where
  repository : Holds repository? (valueOf? "repository" entries) f.repository
  branch : Holds Yaml.Node.text? (valueOf? "branch" entries) f.branch
  gemsDir : Holds Yaml.Node.text? (valueOf? "gems_dir" entries) f.gemsDir
  output : Holds path? (valueOf? "output" entries) f.output
  storage : Holds path? (valueOf? "storage" entries) f.storage
  pollInterval : Holds interval? (valueOf? "poll_interval_ms" entries) f.pollInterval

theorem sets_setEntries {entries : List (Yaml.Node × Yaml.Node)}
    (h : empty.setEntries entries = .ok f) : f.Sets entries := by
  have hholds : ∀ {α : Type} {key : String} {read : Yaml.Node → Option α}
      {field : ProjectFile → Option α}, Takes key read field → field empty = none →
      Holds read (valueOf? key entries) (field f) := by
    intro α key read field htakes hempty
    rcases htakes.setEntries h with ⟨hnone, hsame⟩ | ⟨value, a, hvalue, hread, ha⟩
    · rw [hnone, hsame, hempty]
      exact .unset
    · rw [hvalue, ha]
      exact .set hread
  exact {
    repository := hholds takes_repository rfl
    branch := hholds takes_branch rfl
    gemsDir := hholds takes_gemsDir rfl
    output := hholds takes_output rfl
    storage := hholds takes_storage rfl
    pollInterval := hholds takes_pollInterval rfl }

/-- The entries of the first document, if it is a mapping. -/
def entriesOf : List Yaml.Node → List (Yaml.Node × Yaml.Node)
  | .mapping entries :: _ => entries
  | _ => []

/-- A file that is accepted sets what the entries of its first document say. -/
theorem sets_of_parse {text : String} (h : parse text = .ok f) :
    ∃ documents, Yaml.documents? text = some documents ∧ f.Sets (entriesOf documents) := by
  rw [parse] at h
  split at h
  · next documents hdocuments =>
    refine ⟨documents, hdocuments, ?_⟩
    have hempty : empty.Sets [] := sets_setEntries rfl
    unfold ofDocuments at h
    split at h
    · cases h
      exact hempty
    · cases h
      exact hempty
    · exact sets_setEntries h
    · cases h
  · cases h

theorem exists_of_valueOf? {entries : List (Yaml.Node × Yaml.Node)}
    (h : valueOf? key entries = some value) : ∃ e ∈ entries, e.2 = value := by
  induction entries with
  | nil => cases h
  | cons entry rest ih =>
    rcases Option.or_eq_some_iff.1 h with hlater | ⟨-, hhere⟩
    · obtain ⟨e, he, hsame⟩ := ih hlater
      exact ⟨e, by simp [he], hsame⟩
    · split at hhere
      · exact ⟨entry, by simp, Option.some.inj hhere⟩
      · cases hhere

/-- A value read from a file is below 2^63 if it is an interval. -/
theorem interval?_lt {text : String} {documents : List Yaml.Node} {value : Yaml.Node}
    {v : Interval} (hdocuments : Yaml.documents? text = some documents)
    (hvalue : valueOf? key (entriesOf documents) = some value) (hread : interval? value = some v) :
    value = .scalar (.integer v.milliseconds) ∧ v.milliseconds < 0x8000_0000_0000_0000 := by
  obtain ⟨e, he, rfl⟩ := exists_of_valueOf? hvalue
  have hbounds : e.2.InBounds := by
    match documents, Yaml.inBounds_documents hdocuments, he with
    | .mapping entries :: _, hall, he =>
      cases hall _ (List.mem_cons_self ..) with
      | mapping _ hvalues => exact hvalues e he
  rw [interval?.eq_def] at hread
  split at hread
  · next n hn =>
    have hms := Interval.ofMilliseconds?_eq_some.1 hread
    have hpositive := v.positive
    rw [hn] at hbounds ⊢
    cases hbounds with
    | scalar hfits =>
      have hfit := hfits n rfl
      simp only [Yaml.fits, Bool.and_eq_true, decide_eq_true_eq] at hfit
      have hcast : n = v.milliseconds := by omega
      exact ⟨by rw [hcast], by omega⟩
  · cases hread

end ProjectFile

/-! ### The settings of a command -/

open CommandLine ProjectFile

/-- What a setting comes to: what is read from the text its flag is given, else what is read from
the value of its key, else a default. -/
inductive Effective {α : Type} (ofText : String → Option α) (ofNode : Yaml.Node → Option α) :
    Option String → Option Yaml.Node → Option α → Option α → Prop
  | flag {raw : String} {a : α} {value? : Option Yaml.Node} {default? : Option α} :
      ofText raw = some a → Effective ofText ofNode (some raw) value? default? (some a)
  | file {value : Yaml.Node} {a : α} {default? : Option α} :
      ofNode value = some a → Effective ofText ofNode none (some value) default? (some a)
  | default {default? : Option α} : Effective ofText ofNode none none default? default?

section Effective

variable {α : Type} {ofText : String → Option α} {ofNode : Yaml.Node → Option α}
  {text? : Option String} {value? : Option Yaml.Node} {default? : Option α}

/-- The text given, the value of the key and the default are all that a setting depends on. -/
theorem Effective.unique {a b : Option α} (ha : Effective ofText ofNode text? value? default? a)
    (hb : Effective ofText ofNode text? value? default? b) : a = b := by
  cases ha with
  | flag ha =>
    cases hb with
    | flag hb => exact ha.symm.trans hb
  | file ha =>
    cases hb with
    | file hb => exact ha.symm.trans hb
  | default =>
    cases hb
    rfl

/-- A setting that is there comes from one of its three sources. -/
theorem Effective.source {a : α}
    (h : Effective ofText ofNode text? value? default? (some a)) :
    (∃ raw, ofText raw = some a) ∨ (∃ value, value? = some value ∧ ofNode value = some a) ∨
      default? = some a := by
  cases h with
  | flag hread => exact Or.inl ⟨_, hread⟩
  | file hread => exact Or.inr (Or.inl ⟨_, rfl, hread⟩)
  | default => exact Or.inr (Or.inr rfl)

/-- A flag counts before a field of the file, and the field before a default. -/
theorem Holds.effective {flag field : Option α} (hflag : Holds ofText text? flag)
    (hfield : Holds ofNode value? field) :
    Effective ofText ofNode text? value? default? ((flag.or field).or default?) := by
  cases hflag with
  | set hread => exact .flag hread
  | unset =>
    cases hfield with
    | set hread => exact .file hread
    | unset => exact .default

end Effective

namespace Project

/-- The settings of a command in a project: each is what its own flag, its own key and its own
default come to. -/
structure Follows (p : Project) (command : Command) (given : List (Flag × String))
    (entries : List (Yaml.Node × Yaml.Node)) : Prop where
  repository : Effective repositoryOf? repository? (textOf? "repo" given)
    (valueOf? "repository" entries) (some defaultRepository)
    (some (p.remoteSettings command.remoteFlags).repository)
  branch : Effective some Yaml.Node.text? (textOf? "branch" given) (valueOf? "branch" entries)
    (some defaultBranch) (some (p.remoteSettings command.remoteFlags).branch)
  gemsDir : Effective some Yaml.Node.text? (textOf? "dir" given) (valueOf? "gems_dir" entries)
    (some defaultGemsDir) (some (p.remoteSettings command.remoteFlags).gemsDir)
  output : ∃ dir, p.outputDir command.output? = p.root.join dir ∧
    Effective pathOf? path? (textOf? "output" given) (valueOf? "output" entries)
      (some defaultOutput) (some dir)
  storage : Effective pathOf? path? (textOf? "storage" given) (valueOf? "storage" entries) none
    (p.storage? command.storage?)
  pollInterval : Effective intervalOf? interval? (textOf? "interval-ms" given)
    (valueOf? "poll_interval_ms" entries) (some .second)
    (some (p.pollInterval command.interval?))

/-- What a command works with is good, whatever it comes from: the repository is well named, and
the interval is some time that has a place in 64 bits. -/
structure Sound (p : Project) (command : Command) : Prop where
  repository : (p.remoteSettings command.remoteFlags).repository.WellNamed
  interval_pos : 1 ≤ (p.pollInterval command.interval?).milliseconds
  interval_lt : (p.pollInterval command.interval?).milliseconds < Version.numberLimit

variable {p : Project} {command : Command} {given : List (Flag × String)}
  {entries : List (Yaml.Node × Yaml.Node)}

theorem follows_of_sets (hgiven : command.Heeds given) (hfile : p.file.Sets entries) :
    p.Follows command given entries := by
  have hdefault : ∀ {α : Type} {ofText : String → Option α} {ofNode : Yaml.Node → Option α}
      {text? : Option String} {value? : Option Yaml.Node} {flag field : Option α} (a : α),
      Holds ofText text? flag → Holds ofNode value? field →
      Effective ofText ofNode text? value? (some a) (some ((flag.or field).getD a)) := by
    intro α ofText ofNode text? value? flag field a hflag hfield
    have heffective : Effective ofText ofNode text? value? (some a) _ := hflag.effective hfield
    rwa [Option.or_some] at heffective
  have hstorage : Effective pathOf? path? _ _ none _ := hgiven.storage.effective hfile.storage
  rw [Option.or_none] at hstorage
  exact {
    repository := hdefault _ hgiven.repository hfile.repository
    branch := hdefault _ hgiven.branch hfile.branch
    gemsDir := hdefault _ hgiven.gemsDir hfile.gemsDir
    output := ⟨_, rfl, hdefault _ hgiven.output hfile.output⟩
    storage := hstorage
    pollInterval := hdefault _ hgiven.pollInterval hfile.pollInterval }

/-- Settings that follow what is given and what a file says are sound. -/
theorem Follows.sound {text : String} {documents : List Yaml.Node}
    (h : p.Follows command given (entriesOf documents))
    (hdocuments : Yaml.documents? text = some documents) : p.Sound command where
  repository := by
    have hnamed : ∀ {raw : String} {r : Repository}, repositoryOf? raw = some r →
        r.WellNamed := by
      intro raw r hr
      rw [repositoryOf?] at hr
      cases hparse : Repository.parse raw with
      | error e => rw [hparse] at hr; cases hr
      | ok r' =>
        rw [hparse] at hr
        cases hr
        exact Repository.wellNamed_of_parse hparse
    rcases h.repository.source with ⟨raw, hraw⟩ | ⟨value, -, hvalue⟩ | hdefault
    · exact hnamed hraw
    · obtain ⟨raw, -, hraw⟩ := Option.bind_eq_some_iff.1 hvalue
      exact hnamed hraw
    · rw [← Option.some.inj hdefault]
      exact ⟨by decide, by decide, by decide, by decide⟩
  interval_pos := (p.pollInterval command.interval?).positive
  interval_lt := by
    rcases h.pollInterval.source with ⟨raw, hraw⟩ | ⟨value, hvalue, hread⟩ | hdefault
    · obtain ⟨n, hn, hv⟩ := Option.bind_eq_some_iff.1 hraw
      rw [Interval.ofMilliseconds?_eq_some.1 hv]
      exact number?_lt hn
    · obtain ⟨-, hlt⟩ := interval?_lt hdocuments hvalue hread
      exact hlt.trans (by decide)
    · rw [← Option.some.inj hdefault]
      decide

/-- Each setting of an accepted command line in a project with an accepted file is what its flag
is given, else what its key says, else its default, and all of them are sound. -/
theorem settings_effective {argv : List String} {text : String} {i : Invocation}
    {file : ProjectFile} (hargv : Invocation.parse argv = .ok i)
    (htext : ProjectFile.parse text = .ok file) :
    ∃ front outer rest given documents,
      argv.drop 1 = front ++ i.command.name :: rest ∧
      outerGrammar.Line 0 none front outer ∧
      (innerGrammar i.command.name).Line 0 none rest given ∧ (given.map (·.1.name)).Nodup ∧
      Yaml.documents? text = some documents ∧
      Follows ⟨i.root, file⟩ i.command given (entriesOf documents) ∧
      Sound ⟨i.root, file⟩ i.command := by
  obtain ⟨front, outer, rest, given, hwords, houter, hline, hdistinct, hheeds⟩ :=
    Invocation.exists_line hargv
  obtain ⟨documents, hdocuments, hsets⟩ := sets_of_parse htext
  have hfollows : Follows ⟨i.root, file⟩ i.command given (entriesOf documents) :=
    follows_of_sets hheeds hsets
  exact ⟨front, outer, rest, given, documents, hwords, houter, hline, hdistinct, hdocuments,
    hfollows, hfollows.sound hdocuments⟩

/-- The largest interval there is, given over the one of the file. -/
theorem settings_effective_largestInterval :
    Invocation.parse ["picogem", "sync", "--interval-ms", "18446744073709551615"] =
        .ok ⟨.sync none false (some ⟨18446744073709551615, by decide⟩), some .warn, ⟨"."⟩, false⟩ ∧
      ProjectFile.parse "repository: me/gems\nstorage: /mnt\npoll_interval_ms: 250\n" =
        .ok ⟨some ⟨"me", "gems"⟩, none, none, none, some ⟨"/mnt"⟩, some ⟨250, by decide⟩⟩ ∧
      ∃ front outer rest given documents,
        ["sync", "--interval-ms", "18446744073709551615"] = front ++ "sync" :: rest ∧
        outerGrammar.Line 0 none front outer ∧
        (innerGrammar "sync").Line 0 none rest given ∧ (given.map (·.1.name)).Nodup ∧
        Yaml.documents? "repository: me/gems\nstorage: /mnt\npoll_interval_ms: 250\n" =
          some documents ∧
        Follows ⟨⟨"."⟩, ⟨some ⟨"me", "gems"⟩, none, none, none, some ⟨"/mnt"⟩,
            some ⟨250, by decide⟩⟩⟩
          (.sync none false (some ⟨18446744073709551615, by decide⟩)) given
          (entriesOf documents) ∧
        Sound ⟨⟨"."⟩, ⟨some ⟨"me", "gems"⟩, none, none, none, some ⟨"/mnt"⟩,
            some ⟨250, by decide⟩⟩⟩
          (.sync none false (some ⟨18446744073709551615, by decide⟩)) := by
  have hargv : Invocation.parse ["picogem", "sync", "--interval-ms", "18446744073709551615"] =
      .ok ⟨.sync none false (some ⟨18446744073709551615, by decide⟩), some .warn, ⟨"."⟩, false⟩ := by
    decide +kernel
  have htext : ProjectFile.parse "repository: me/gems\nstorage: /mnt\npoll_interval_ms: 250\n" =
      .ok ⟨some ⟨"me", "gems"⟩, none, none, none, some ⟨"/mnt"⟩, some ⟨250, by decide⟩⟩ := by
    decide +kernel
  exact ⟨hargv, htext, settings_effective hargv htext⟩

end Project

end GemCourier
