/-
GemCourier/Proofs/Project/Entries.lean

What the entries of a project file come to.

Entries are read one after the other, and only those count whose key is a text
and known (`known`).  Such an entry is taken in if its value is of the kind that
the key asks for (`OfKind`), and is wrong in one way otherwise (`Wrong`); what
was read before it does not matter to that.  So the error of a file is that of
its first wrong entry, and a file without a wrong one is accepted.

What an accepted file sets is told from the values under the known keys.  Where
no known key comes twice, these are the same in every order of the entries and
with anything else between them.

Main results: `set_error_iff`, `setEntries_error_iff`, `setEntries_ok_iff`,
`setEntries_perm`, `ofDocuments_accounts`.
-/
import GemCourier.Proofs.Project.Settings

namespace GemCourier

theorem Yaml.Node.text?_eq_some {value : Yaml.Node} {raw : String} :
    value.text? = some raw ↔ value = .scalar (.text raw) := by
  constructor
  · intro h
    unfold text? at h
    split at h
    · obtain rfl := Option.some.inj h
      rfl
    · cases h
  · rintro rfl
    rfl

namespace ProjectFile

variable {f g : ProjectFile} {key : String} {value : Yaml.Node} {e : ProjectFileError}
  {entry : Yaml.Node × Yaml.Node} {entries entries' : List (Yaml.Node × Yaml.Node)}

/-! ### Values of a kind -/

/-- What a key asks of its value. -/
inductive Kind where
  /-- A text that names a repository. -/
  | repository
  /-- Any text. -/
  | text
  /-- A whole number above zero. -/
  | positive
deriving DecidableEq

/-- What a known key asks of its value. -/
def kindOf? : String → Option Kind
  | "repository" => some .repository
  | "branch" => some .text
  | "gems_dir" => some .text
  | "output" => some .text
  | "storage" => some .text
  | "poll_interval_ms" => some .positive
  | _ => none

theorem kindOf?_isSome_iff : (kindOf? key).isSome ↔ key ∈ knownKeys := by
  unfold kindOf?
  split <;> simp_all [knownKeys]

/-- The value is of the kind. -/
inductive OfKind : Kind → Yaml.Node → Prop
  | repository {raw : String} {r : Repository} : Repository.parse raw = .ok r →
      OfKind .repository (.scalar (.text raw))
  | text (raw : String) : OfKind .text (.scalar (.text raw))
  | positive {n : Int} : 0 < n → OfKind .positive (.scalar (.integer n))

/-- What is wrong with a value under a key that is not of the kind. -/
inductive Wrong (key : String) : Kind → Yaml.Node → ProjectFileError → Prop
  | noText {kind : Kind} {value : Yaml.Node} : kind ≠ .positive →
      (∀ raw, value ≠ .scalar (.text raw)) → Wrong key kind value (.invalidValue key "a string")
  | noRepository {raw : String} {cause : RepositoryError} : Repository.parse raw = .error cause →
      Wrong key .repository (.scalar (.text raw)) (.invalidRepository cause)
  | notPositive {value : Yaml.Node} : (∀ n, 0 < n → value ≠ .scalar (.integer n)) →
      Wrong key .positive value (.invalidValue key "a positive integer")

theorem OfKind.not_wrong {kind : Kind} (h : OfKind kind value) : ¬ Wrong key kind value e := by
  intro hwrong
  cases h with
  | repository hparse =>
    cases hwrong with
    | noText _ hnone => exact hnone _ rfl
    | noRepository hparse' => rw [hparse] at hparse'; cases hparse'
  | text raw =>
    cases hwrong with
    | noText _ hnone => exact hnone _ rfl
  | positive hn =>
    cases hwrong with
    | noText hkind _ => exact hkind rfl
    | notPositive hnone => exact hnone _ hn rfl

/-- A value is of a kind or wrong. -/
theorem ofKind_or_wrong (key : String) (kind : Kind) (value : Yaml.Node) :
    OfKind kind value ∨ ∃ e, Wrong key kind value e := by
  by_cases htext : ∃ raw, value = .scalar (.text raw)
  · obtain ⟨raw, rfl⟩ := htext
    cases kind with
    | text => exact Or.inl (.text raw)
    | positive => exact Or.inr ⟨_, .notPositive fun n _ => by simp⟩
    | repository =>
      cases hparse : Repository.parse raw with
      | ok r => exact Or.inl (.repository hparse)
      | error cause => exact Or.inr ⟨_, .noRepository hparse⟩
  · have hnone : ∀ raw, value ≠ .scalar (.text raw) := fun raw hraw => htext ⟨raw, hraw⟩
    cases kind with
    | text => exact Or.inr ⟨_, .noText (by simp) hnone⟩
    | repository => exact Or.inr ⟨_, .noText (by simp) hnone⟩
    | positive =>
      by_cases hpositive : ∃ n, 0 < n ∧ value = .scalar (.integer n)
      · obtain ⟨n, hn, rfl⟩ := hpositive
        exact Or.inl (.positive hn)
      · exact Or.inr ⟨_, .notPositive fun n hn hvalue => hpositive ⟨n, hn, hvalue⟩⟩

/-! ### One entry -/

theorem textValue_error_iff : textValue key value = .error e ↔ Wrong key .text value e := by
  rw [textValue]
  cases htext : value.text? with
  | some raw =>
    obtain rfl := Yaml.Node.text?_eq_some.1 htext
    exact ⟨fun h => by simp at h, fun h => absurd h (OfKind.text raw).not_wrong⟩
  | none =>
    have hnone : ∀ raw, value ≠ .scalar (.text raw) := by
      intro raw hraw
      rw [Yaml.Node.text?_eq_some.2 hraw] at htext
      cases htext
    constructor
    · intro h
      cases h
      exact .noText (by simp) hnone
    · intro h
      cases h with
      | noText => rfl

theorem repositoryValue_error_iff :
    repositoryValue key value = .error e ↔ Wrong key .repository value e := by
  rw [repositoryValue]
  cases htext : textValue key value with
  | error e' =>
    cases textValue_error_iff.1 htext with
    | noText _ hnone =>
      constructor
      · intro h
        cases h
        exact .noText (by simp) hnone
      · intro h
        cases h with
        | noText => rfl
        | noRepository => exact absurd rfl (hnone _)
  | ok raw =>
    obtain rfl := Yaml.Node.text?_eq_some.1 (text?_of_textValue htext)
    dsimp only [Except.bind]
    cases hparse : Repository.parse raw with
    | ok r => exact ⟨fun h => by simp at h, fun h => absurd h (OfKind.repository hparse).not_wrong⟩
    | error cause =>
      constructor
      · intro h
        cases h
        exact .noRepository hparse
      · intro h
        cases h with
        | noText _ hnone => exact absurd rfl (hnone raw)
        | noRepository hparse' => rw [hparse] at hparse'; cases hparse'; rfl

theorem positiveValue_error_iff :
    positiveValue key value = .error e ↔ Wrong key .positive value e := by
  have hread : ∀ v, interval? value = some v → OfKind .positive value := by
    intro v hv
    unfold interval? at hv
    split at hv
    · next n =>
      have hms := Interval.ofMilliseconds?_eq_some.1 hv
      have := v.positive
      exact .positive (by omega)
    · cases hv
  cases hresult : positiveValue key value with
  | ok v =>
    have hof := hread v (interval?_of_positiveValue hresult)
    exact ⟨fun h => by simp at h, fun h => absurd h hof.not_wrong⟩
  | error e' =>
    obtain ⟨rfl, hvalue⟩ : e' = .invalidValue key "a positive integer" ∧
        interval? value = none := by
      dsimp only [positiveValue] at hresult
      split at hresult
      · cases hresult
      · next hnone =>
        cases hresult
        exact ⟨rfl, hnone⟩
    have hnone : ∀ n, 0 < n → value ≠ .scalar (.integer n) := by
      rintro n hn rfl
      have hpositive : 0 < n.toNat := by omega
      simp [interval?, Interval.ofMilliseconds?, hpositive] at hvalue
    constructor
    · intro h
      cases h
      exact .notPositive hnone
    · intro h
      cases h with
      | noText hkind => exact absurd rfl hkind
      | notPositive => rfl

/-- A value is refused exactly if it is wrong, whatever was set before. -/
theorem set_error_iff :
    f.set key value = .error e ↔ ∃ kind, kindOf? key = some kind ∧ Wrong key kind value e := by
  have hmap : ∀ {α : Type} {step : Except ProjectFileError α} {next : α → ProjectFile}
      {kind : Kind}, kindOf? key = some kind → (step = .error e ↔ Wrong key kind value e) →
      (step.map next = .error e ↔ ∃ kind, kindOf? key = some kind ∧ Wrong key kind value e) := by
    intro α step next kind hkind hstep
    have hmapped : step.map next = .error e ↔ step = .error e := by
      cases step <;> simp [Except.map]
    rw [hmapped, hstep, hkind]
    exact ⟨fun h => ⟨kind, rfl, h⟩, fun ⟨_, heq, h⟩ => Option.some.inj heq ▸ h⟩
  unfold set
  split
  · exact hmap rfl repositoryValue_error_iff
  · exact hmap rfl textValue_error_iff
  · exact hmap rfl textValue_error_iff
  · exact hmap rfl textValue_error_iff
  · exact hmap rfl textValue_error_iff
  · exact hmap rfl positiveValue_error_iff
  · have hunknown : kindOf? key = none := by
      unfold kindOf?
      split <;> simp_all
    simp [hunknown]

/-- An entry that counts, as its key and its value: one whose key is a text and known. -/
def known? (entry : Yaml.Node × Yaml.Node) : Option (String × Yaml.Node) :=
  (entry.1.text?.filter knownKeys.contains).map fun key => (key, entry.2)

/-- The entries that count, in order. -/
def known (entries : List (Yaml.Node × Yaml.Node)) : List (String × Yaml.Node) :=
  entries.filterMap known?

/-- The value of an entry that counts is of the kind that its key asks for. -/
def Proper (p : String × Yaml.Node) : Prop :=
  ∃ kind, kindOf? p.1 = some kind ∧ OfKind kind p.2

/-- The value of an entry that counts is not of the kind that its key asks for. -/
def Faulty (p : String × Yaml.Node) (e : ProjectFileError) : Prop :=
  ∃ kind, kindOf? p.1 = some kind ∧ Wrong p.1 kind p.2 e

theorem known?_eq_some : known? entry = some (key, value) ↔
    entry.1.text? = some key ∧ key ∈ knownKeys ∧ entry.2 = value := by
  rw [known?, Option.map_eq_some_iff]
  simp only [Option.filter_eq_some_iff, List.contains_iff_mem, Prod.mk.injEq]
  constructor
  · rintro ⟨k, ⟨hk, hknown⟩, rfl, hvalue⟩
    exact ⟨hk, hknown, hvalue⟩
  · rintro ⟨hk, hknown, hvalue⟩
    exact ⟨key, ⟨hk, hknown⟩, rfl, hvalue⟩

theorem Proper.not_faulty {p : String × Yaml.Node} (h : Proper p) : ¬ Faulty p e := by
  rintro ⟨kind, hkind, hwrong⟩
  obtain ⟨kind', hkind', hof⟩ := h
  rw [hkind] at hkind'
  cases hkind'
  exact hof.not_wrong hwrong

theorem setEntry_error_iff :
    f.setEntry entry = .error e ↔ ∃ p, known? entry = some p ∧ Faulty p e := by
  rw [setEntry]
  split
  · next key hkey =>
    rw [set_error_iff]
    constructor
    · rintro ⟨kind, hkind, hwrong⟩
      have hknown : key ∈ knownKeys := kindOf?_isSome_iff.1 (by rw [hkind]; rfl)
      exact ⟨(key, entry.2), known?_eq_some.2 ⟨hkey, hknown, rfl⟩, kind, hkind, hwrong⟩
    · rintro ⟨⟨key', value⟩, hp, hfaulty⟩
      obtain ⟨hkey', -, rfl⟩ := known?_eq_some.1 hp
      rw [hkey] at hkey'
      cases hkey'
      exact hfaulty
  · next hnotext =>
    simp [known?, hnotext]

theorem exists_setEntry_iff :
    (∃ g, f.setEntry entry = .ok g) ↔ ∀ p, known? entry = some p → Proper p := by
  constructor
  · rintro ⟨g, hg⟩ ⟨key, value⟩ hp
    obtain ⟨kind, hkind⟩ := Option.isSome_iff_exists.1
      (kindOf?_isSome_iff.2 (known?_eq_some.1 hp).2.1)
    rcases ofKind_or_wrong key kind value with hof | ⟨e, hwrong⟩
    · exact ⟨kind, hkind, hof⟩
    · rw [setEntry_error_iff.2 ⟨_, hp, kind, hkind, hwrong⟩] at hg
      cases hg
  · intro hproper
    cases hset : f.setEntry entry with
    | ok g => exact ⟨g, rfl⟩
    | error e =>
      obtain ⟨p, hp, hfaulty⟩ := setEntry_error_iff.1 hset
      exact absurd hfaulty (hproper p hp).not_faulty

/-! ### Entries in order -/

theorem forall_mem_known_cons {P : String × Yaml.Node → Prop} :
    (∀ p ∈ known (entry :: entries), P p) ↔
      (∀ p, known? entry = some p → P p) ∧ ∀ p ∈ known entries, P p := by
  cases hentry : known? entry <;> simp [known, hentry]

/-- The error of a file is that of the first entry that is wrong. -/
theorem setEntries_error_iff : f.setEntries entries = .error e ↔
    ∃ before entry after, entries = before ++ entry :: after ∧ (∀ p ∈ known before, Proper p) ∧
      ∃ p, known? entry = some p ∧ Faulty p e := by
  induction entries generalizing f with
  | nil => simp [setEntries]
  | cons first rest ih =>
    rw [setEntries]
    cases hfirst : f.setEntry first with
    | error e' =>
      obtain ⟨p, hp, hfaulty⟩ := setEntry_error_iff.1 hfirst
      constructor
      · intro h
        cases h
        exact ⟨[], first, rest, rfl, by simp [known], p, hp, hfaulty⟩
      · rintro ⟨before, entry, after, heq, hproper, hwrong⟩
        cases before with
        | nil =>
          obtain ⟨rfl, rfl⟩ := List.cons.inj heq
          rw [setEntry_error_iff.2 hwrong] at hfirst
          cases hfirst
          rfl
        | cons other before =>
          obtain ⟨rfl, rfl⟩ := List.cons.inj heq
          exact absurd hfaulty ((forall_mem_known_cons.1 hproper).1 p hp).not_faulty
    | ok mid =>
      refine (ih (f := mid)).trans ⟨?_, ?_⟩
      · rintro ⟨before, entry, after, rfl, hproper, hwrong⟩
        exact ⟨first :: before, entry, after, rfl,
          forall_mem_known_cons.2 ⟨exists_setEntry_iff.1 ⟨mid, hfirst⟩, hproper⟩, hwrong⟩
      · rintro ⟨before, entry, after, heq, hproper, hwrong⟩
        cases before with
        | nil =>
          obtain ⟨rfl, rfl⟩ := List.cons.inj heq
          rw [setEntry_error_iff.2 hwrong] at hfirst
          cases hfirst
        | cons other before =>
          obtain ⟨rfl, rfl⟩ := List.cons.inj heq
          exact ⟨before, entry, after, rfl, (forall_mem_known_cons.1 hproper).2, hwrong⟩

theorem exists_setEntries_iff :
    (∃ g, f.setEntries entries = .ok g) ↔ ∀ p ∈ known entries, Proper p := by
  induction entries generalizing f with
  | nil => simp [setEntries, known]
  | cons first rest ih =>
    rw [forall_mem_known_cons, setEntries, ← exists_setEntry_iff (f := f)]
    cases hfirst : f.setEntry first with
    | error e => simp [Except.bind]
    | ok mid =>
      refine (ih (f := mid)).trans ⟨fun h => ⟨⟨mid, rfl⟩, h⟩, And.right⟩

/-! ### Values under keys -/

/-- Where no known key comes twice, the value under one is that of the entry with the key. -/
theorem valueOf?_eq_some_iff (hkey : key ∈ knownKeys)
    (hnodup : ((known entries).map Prod.fst).Nodup) :
    valueOf? key entries = some value ↔ (key, value) ∈ known entries := by
  induction entries generalizing value with
  | nil => simp [valueOf?, known]
  | cons entry rest ih =>
    by_cases htext : entry.1.text? = some key
    · have hentry : known? entry = some (key, entry.2) := known?_eq_some.2 ⟨htext, hkey, rfl⟩
      have hknown : known (entry :: rest) = (key, entry.2) :: known rest :=
        List.filterMap_cons_some hentry
      rw [hknown, List.map_cons, List.nodup_cons] at hnodup
      obtain ⟨hfresh, hrest⟩ := hnodup
      -- the key does not come again
      have hlater : ∀ v, (key, v) ∉ known rest := fun v hv =>
        hfresh (List.mem_map.2 ⟨_, hv, rfl⟩)
      have hnone : valueOf? key rest = none := by
        rw [Option.eq_none_iff_forall_ne_some]
        exact fun v hv => hlater v ((ih hrest).1 hv)
      rw [valueOf?, hnone, Option.none_or, if_pos htext, hknown]
      simp [hlater, eq_comm]
    · have hentry : known? entry ≠ some (key, value) := fun h => htext (known?_eq_some.1 h).1
      have hrest : ((known rest).map Prod.fst).Nodup :=
        hnodup.sublist (((List.sublist_cons_self entry rest).filterMap known?).map Prod.fst)
      have hmem : (key, value) ∈ known (entry :: rest) ↔ (key, value) ∈ known rest := by
        simp [known, hentry]
      rw [valueOf?, if_neg htext, Option.or_none, ih hrest, hmem]

/-- Entries with the same values under the known keys say the same. -/
theorem Sets.congr (hvalues : ∀ key ∈ knownKeys, valueOf? key entries' = valueOf? key entries)
    (h : f.Sets entries) : f.Sets entries' where
  repository := hvalues "repository" (by decide) ▸ h.repository
  branch := hvalues "branch" (by decide) ▸ h.branch
  gemsDir := hvalues "gems_dir" (by decide) ▸ h.gemsDir
  output := hvalues "output" (by decide) ▸ h.output
  storage := hvalues "storage" (by decide) ▸ h.storage
  pollInterval := hvalues "poll_interval_ms" (by decide) ▸ h.pollInterval

/-- What entries say is one file. -/
theorem Sets.unique (hf : f.Sets entries) (hg : g.Sets entries) : f = g := by
  have hsame : ∀ {α : Type} {read : Yaml.Node → Option α} {value? : Option Yaml.Node}
      {a b : Option α}, Holds read value? a → Holds read value? b → a = b := by
    intro α read value? a b ha hb
    cases ha with
    | unset =>
      cases hb
      rfl
    | set ha =>
      cases hb with
      | set hb => exact ha.symm.trans hb
  cases f
  cases g
  rw [mk.injEq]
  exact ⟨hsame hf.repository hg.repository, hsame hf.branch hg.branch,
    hsame hf.gemsDir hg.gemsDir, hsame hf.output hg.output, hsame hf.storage hg.storage,
    hsame hf.pollInterval hg.pollInterval⟩

/-- A file is accepted if all its entries are proper, and sets then what they say. -/
theorem setEntries_ok_iff : empty.setEntries entries = .ok f ↔
    (∀ p ∈ known entries, Proper p) ∧ f.Sets entries := by
  constructor
  · exact fun h => ⟨exists_setEntries_iff.1 ⟨f, h⟩, sets_setEntries h⟩
  · rintro ⟨hproper, hf⟩
    obtain ⟨g, hg⟩ := exists_setEntries_iff.2 hproper
    rw [hg, (sets_setEntries hg).unique hf]

/-- Neither the order of the entries nor those that do not count matter to what a file sets. -/
theorem setEntries_perm (hnodup : ((known entries).map Prod.fst).Nodup)
    (hperm : (known entries').Perm (known entries)) :
    empty.setEntries entries' = .ok f ↔ empty.setEntries entries = .ok f := by
  have hnodup' : ((known entries').map Prod.fst).Nodup := (hperm.map Prod.fst).nodup_iff.2 hnodup
  have hvalues : ∀ key ∈ knownKeys, valueOf? key entries' = valueOf? key entries := by
    intro key hkey
    refine Option.ext fun value => ?_
    rw [valueOf?_eq_some_iff hkey hnodup', valueOf?_eq_some_iff hkey hnodup, hperm.mem_iff]
  rw [setEntries_ok_iff, setEntries_ok_iff]
  refine and_congr (forall_congr' fun p => by rw [hperm.mem_iff]) ⟨fun h => ?_, fun h => ?_⟩
  · exact h.congr fun key hkey => (hvalues key hkey).symm
  · exact h.congr hvalues

/-! ### Documents -/

/-- **What a project file comes to.**  Without a document, or with a first one that is null, it
sets nothing, and with any other first document that is no mapping it is refused.  A mapping is
accepted if the entries that count are proper; it sets then what they say, each field from the
value of its own key, whatever the order of the entries if no known key comes twice, and whatever
else there is.  If it is not accepted, the error is that of the first wrong entry. -/
theorem ofDocuments_accounts :
    (∀ text documents, Yaml.documents? text = some documents →
      parse text = ofDocuments documents) ∧
    ofDocuments [] = .ok empty ∧
    (∀ others, ofDocuments (.scalar .null :: others) = .ok empty) ∧
    (∀ first others, first ≠ .scalar .null → (∀ entries, first ≠ .mapping entries) →
      ofDocuments (first :: others) = .error .topLevelNotMap) ∧
    ∀ entries others,
      ((∃ f, ofDocuments (.mapping entries :: others) = .ok f) ↔ ∀ p ∈ known entries, Proper p) ∧
      (∀ f, ofDocuments (.mapping entries :: others) = .ok f → f.Sets entries) ∧
      (((known entries).map Prod.fst).Nodup → ∀ entries' others',
        (known entries').Perm (known entries) → ∀ f,
          ofDocuments (.mapping entries' :: others') = .ok f ↔
            ofDocuments (.mapping entries :: others) = .ok f) ∧
      ∀ e, ofDocuments (.mapping entries :: others) = .error e ↔
        ∃ before entry after, entries = before ++ entry :: after ∧
          (∀ p ∈ known before, Proper p) ∧ ∃ p, known? entry = some p ∧ Faulty p e := by
  refine ⟨fun text documents hdocuments => by rw [parse, hdocuments], rfl, fun _ => rfl,
    fun first others hnull hmapping => ?_, fun entries others => ⟨?_, ?_, ?_, ?_⟩⟩
  · unfold ofDocuments
    split
    · next heq => cases heq
    · next heq =>
      cases heq
      exact absurd rfl hnull
    · next heq =>
      cases heq
      exact absurd rfl (hmapping _)
    · rfl
  · exact exists_setEntries_iff
  · exact fun f => sets_setEntries
  · exact fun hnodup entries' others' hperm f => setEntries_perm hnodup hperm
  · exact fun e => setEntries_error_iff

/-- Two mappings that say the same in different orders, and one with two wrong values. -/
theorem ofDocuments_accounts_orders :
    let text : String → Yaml.Node := fun s => .scalar (.text s)
    let plain := [(text "branch", text "main"), (text "poll_interval_ms", .scalar (.integer 500))]
    let mixed := [(text "license", text "MIT"), (text "poll_interval_ms", .scalar (.integer 500)),
      (.scalar (.integer 5), text "branch"), (text "branch", text "main")]
    let wrong := [(text "storage", .scalar .null), (text "branch", .sequence [])]
    (∃ f : ProjectFile, ofDocuments [.mapping plain] = .ok f ∧
      ofDocuments [.mapping mixed, .sequence []] = .ok f ∧ f.Sets plain) ∧
    ofDocuments [.mapping wrong] = .error (.invalidValue "storage" "a string") ∧
    ofDocuments [text "branch"] = .error .topLevelNotMap ∧
    parse "" = ofDocuments [] := by
  intro text plain mixed wrong
  obtain ⟨hparse, -, -, htop, hmapping⟩ := ofDocuments_accounts
  obtain ⟨hok, hsets, hsame, -⟩ := hmapping plain []
  have hbranch : Proper ("branch", text "main") := ⟨.text, rfl, .text "main"⟩
  have hinterval : Proper ("poll_interval_ms", .scalar (.integer 500)) :=
    ⟨.positive, rfl, .positive (by decide)⟩
  obtain ⟨f, hf⟩ := hok.2 fun p hp => by
    have hknown : known plain =
        [("branch", text "main"), ("poll_interval_ms", .scalar (.integer 500))] := rfl
    rw [hknown] at hp
    simp only [List.mem_cons, List.not_mem_nil, or_false] at hp
    rcases hp with rfl | rfl
    · exact hbranch
    · exact hinterval
  refine ⟨⟨f, hf, (hsame (by decide) mixed [.sequence []] (.swap ..) f).2 hf, hsets f hf⟩, ?_,
    htop _ _ (by simp [text]) (by simp [text]), hparse "" [] rfl⟩
  exact ((hmapping wrong []).2.2.2 _).2 ⟨[], _, _, rfl, by simp [known], ("storage", .scalar .null),
    rfl, .text, rfl, .noText (by decide) (by simp)⟩

end ProjectFile

end GemCourier
