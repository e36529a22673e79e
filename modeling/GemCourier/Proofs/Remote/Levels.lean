/-
GemCourier/Proofs/Remote/Levels.lean

Remote paths are the same whether they are joined level by level or all at once.

A fragment counts by what is left of it between the slashes around it (`Sheds`), and a
joined path has no slashes around it, so joining is associative and a fragment of slashes
alone is neutral.  A download puts a path together while it walks down, one name for each
directory that it enters.  By associativity that is the path it was started with, joined once
with the way from there (`descend_eq_join`).

Names are what a source lists, any texts at all that pass for plain: nothing here asks for
names without slashes.

Main results: `sheds_iff`, `join_assoc`, `descend_eq_join`, `Round.visits_reached`,
`join_laws`.
-/
import GemCourier.Proofs.Remote.Naming

namespace GemCourier.Remote

variable {a b path kept : String}

/-! ### Slashes around a path -/

/-- The path neither begins nor ends with a slash. -/
structure Bare (path : String) : Prop where
  first : path.toList.head? ≠ some '/'
  last : path.toList.getLast? ≠ some '/'

/-- A path is slashes around what is kept of it, none of which are kept. -/
structure Sheds (path kept : String) : Prop where
  bare : Bare kept
  around : ∃ before after : String, (∀ c ∈ before.toList, c = '/') ∧ (∀ c ∈ after.toList, c = '/') ∧
    path = before ++ kept ++ after

theorem toList_trimSlashes (path : String) :
    (trimSlashes path).toList = Text.trimmed (· == '/') path.toList := by
  rw [trimSlashes, Text.trim, String.toList_ofList]

theorem bare_trimSlashes (path : String) : Bare (trimSlashes path) := by
  constructor
  · intro h
    rw [toList_trimSlashes] at h
    exact absurd (Text.head?_trimmed h) (by decide)
  · intro h
    rw [toList_trimSlashes] at h
    exact absurd (Text.getLast?_trimmed h) (by decide)

/-- What a path keeps is what trimming leaves. -/
theorem sheds_iff : Sheds path kept ↔ kept = trimSlashes path := by
  constructor
  · rintro ⟨⟨hfirst, hlast⟩, before, after, hbefore, hafter, rfl⟩
    rw [← String.toList_inj, toList_trimSlashes, String.toList_append, String.toList_append,
      Text.trimmed_eq_of_surrounded]
    · exact fun c hc => beq_iff_eq.2 (hbefore c hc)
    · exact fun c hc => beq_iff_eq.2 (hafter c hc)
    · rintro c hc
      exact beq_eq_false_iff_ne.2 fun hslash => hfirst (hslash ▸ hc)
    · rintro c hc
      exact beq_eq_false_iff_ne.2 fun hslash => hlast (hslash ▸ hc)
  · rintro rfl
    obtain ⟨before, after, htext, hbefore, hafter⟩ := Text.exists_trimmed (· == '/') path.toList
    refine ⟨bare_trimSlashes path, String.ofList before, String.ofList after, ?_, ?_, ?_⟩
    · rw [String.toList_ofList]
      exact fun c hc => beq_iff_eq.1 (hbefore c hc)
    · rw [String.toList_ofList]
      exact fun c hc => beq_iff_eq.1 (hafter c hc)
    · rw [← String.toList_inj, String.toList_append, String.toList_append, String.toList_ofList,
        String.toList_ofList, toList_trimSlashes]
      exact htext

theorem trimSlashes_of_bare (h : Bare path) : trimSlashes path = path :=
  (sheds_iff.1 ⟨h, "", "", by simp, by simp, by simp⟩).symm

theorem bare_join (a b : String) : Bare (join a b) :=
  trimSlashes_join a b ▸ bare_trimSlashes (join a b)

/-! ### Joining -/

theorem join_of_left (ha : trimSlashes a = "") (b : String) : join a b = trimSlashes b :=
  if_pos ha

theorem join_of_right (a : String) (hb : trimSlashes b = "") : join a b = trimSlashes a := by
  by_cases ha : trimSlashes a = ""
  · rw [join_of_left ha, ha, hb]
  · rw [join, if_neg ha, if_pos hb]

theorem join_of_both (ha : trimSlashes a ≠ "") (hb : trimSlashes b ≠ "") :
    join a b = trimSlashes a ++ "/" ++ trimSlashes b := by
  rw [join, if_neg ha, if_neg hb]

/-- Slashes around what is joined make no difference. -/
theorem join_trimSlashes_left (a b : String) : join (trimSlashes a) b = join a b := by
  rw [join, trimSlashes_trimSlashes, join]

theorem join_trimSlashes_right (a b : String) : join a (trimSlashes b) = join a b := by
  rw [join, trimSlashes_trimSlashes, join]

theorem join_ne_empty (ha : trimSlashes a ≠ "") (b : String) : join a b ≠ "" := by
  by_cases hb : trimSlashes b = ""
  · rwa [join_of_right a hb]
  · rw [join_of_both ha hb]
    simp

theorem join_assoc (a b c : String) : join (join a b) c = join a (join b c) := by
  by_cases ha : trimSlashes a = ""
  · rw [join_of_left ha, join_of_left ha, trimSlashes_join, join_trimSlashes_left]
  by_cases hb : trimSlashes b = ""
  · rw [join_of_right a hb, join_of_left hb, join_trimSlashes_left, join_trimSlashes_right]
  by_cases hc : trimSlashes c = ""
  · rw [join_of_right _ hc, join_of_right b hc, trimSlashes_join, join_trimSlashes_right]
  · -- something is left of all three, and one slash stands between any two
    have hab : trimSlashes (join a b) ≠ "" := by
      rw [trimSlashes_join]
      exact join_ne_empty ha b
    have hbc : trimSlashes (join b c) ≠ "" := by
      rw [trimSlashes_join]
      exact join_ne_empty hb c
    calc join (join a b) c
        = join a b ++ "/" ++ trimSlashes c := by
          rw [join_of_both hab hc, trimSlashes_join]
      _ = trimSlashes a ++ "/" ++ (trimSlashes b ++ "/" ++ trimSlashes c) := by
          rw [join_of_both ha hb]
          simp only [String.append_assoc]
      _ = trimSlashes a ++ "/" ++ join b c := by rw [join_of_both hb hc]
      _ = join a (join b c) := by rw [join_of_both ha hbc, trimSlashes_join]

/-! ### Ways down -/

/-- The way along some names, as one remote path. -/
def route (names : List String) : String :=
  names.foldr join ""

theorem route_cons (name : String) (rest : List String) :
    route (name :: rest) = join name (route rest) := by
  rw [route, route, List.foldr_cons]

theorem route_singleton (name : String) : route [name] = trimSlashes name := by
  rw [route, List.foldr_cons, List.foldr_nil, join_of_right name (by decide)]

/-- Walking down level by level leads to the path joined with the whole way. -/
theorem descend_eq_join (folder : String) {names : List String} (h : names ≠ []) :
    descend folder names = join folder (route names) := by
  induction names generalizing folder with
  | nil => exact absurd rfl h
  | cons name rest ih =>
    rw [descend_cons]
    by_cases hrest : rest = []
    · rw [hrest, route_singleton, join_trimSlashes_right, descend, List.foldl_nil]
    · rw [ih _ hrest, join_assoc, route_cons]

/-- Where the names are bare themselves, the way is written with slashes between them. -/
theorem route_eq_intercalate {names : List String} (h : ∀ n ∈ names, Bare n ∧ n ≠ "") :
    route names = "/".intercalate names := by
  induction names with
  | nil => rfl
  | cons name rest ih =>
    obtain ⟨hbare, hne⟩ := h name List.mem_cons_self
    have hname : trimSlashes name = name := trimSlashes_of_bare hbare
    have hih := ih fun n hn => h n (List.mem_cons_of_mem _ hn)
    cases rest with
    | nil => rw [route_singleton, hname, String.intercalate_singleton]
    | cons next more =>
      obtain ⟨hnext, hsome⟩ := h next (List.mem_cons_of_mem _ List.mem_cons_self)
      have hrest : trimSlashes (route (next :: more)) = route (next :: more) := by
        rw [route_cons, trimSlashes_join]
      have hne' : route (next :: more) ≠ "" := by
        rw [route_cons]
        exact join_ne_empty (by rwa [trimSlashes_of_bare hnext]) (route more)
      rw [String.intercalate_cons_cons, ← hih, route_cons name,
        join_of_both (by rwa [hname]) (by rwa [hrest]), hname, hrest]

namespace Source

variable {source : Source} {folder inner : String} {place : Path} {names : List String}
  {entries : List Entry} {visits : List Visit}

/-- `source.Walk folder names inner`: the names lead down from one directory to another, each
the plain name of a directory that is listed in the one reached before. -/
inductive Walk (source : Source) : String → List String → String → Prop
  | here (folder : String) : Walk source folder [] folder
  | down {folder entries e names inner} : (source.list folder).outcome = .ok entries →
      e ∈ entries → e.kind = .directory → isPlainName e.name = true →
      Walk source (join folder e.name) names inner →
      Walk source folder (e.name :: names) inner

/-- The entry is listed in the directory that the names lead down to. -/
def Beneath (source : Source) (folder : String) (names : List String) (e : Entry) : Prop :=
  ∃ inner listed, source.Walk folder names inner ∧ (source.list inner).outcome = .ok listed ∧
    e ∈ listed

theorem Walk.eq_descend (h : source.Walk folder names inner) : inner = descend folder names := by
  induction h with
  | here folder => rfl
  | down _ _ _ _ _ ih => rw [descend_cons, ih]

/-- Every visit of a round is to an entry that is listed where names lead down to. -/
theorem Round.visits_reached {listed : List Entry} (h : source.Round folder place entries visits)
    (hlisted : (source.list folder).outcome = .ok listed) (hsub : entries ⊆ listed) :
    ∀ v ∈ visits, ∃ names inner, source.Walk folder names v.folder ∧
      (source.list v.folder).outcome = .ok inner ∧ v.entry ∈ inner := by
  intro v hv
  refine h.forall_visits (P := fun folder _ entries v =>
    ∀ {listed}, (source.list folder).outcome = .ok listed → entries ⊆ listed →
      ∃ names inner, source.Walk folder names v.folder ∧
        (source.list v.folder).outcome = .ok inner ∧ v.entry ∈ inner)
    ?here ?later ?outer v hv hlisted hsub
  case here =>
    intro folder place e rest fate listed hlisted hsub
    exact ⟨[], listed, .here folder, hlisted, hsub List.mem_cons_self⟩
  case later =>
    intro folder place e rest v hv listed hlisted hsub
    exact hv hlisted (List.subset_of_cons_subset hsub)
  case outer =>
    intro folder place e inner rest v hname hkind hinner hv listed hlisted hsub
    obtain ⟨names, last, hwalk, hmem⟩ := hv hinner (List.Subset.refl _)
    exact ⟨_, last, .down hlisted (hsub List.mem_cons_self) hkind hname hwalk, hmem⟩

/-- The path is put together level by level on the way down to an entry, and it is the path of
the directory that the way starts from, joined once with the whole way.  The entry carries the
same path if it was made in the directory that it is listed in. -/
def Routed (source : Source) (folder path : String) : Prop :=
  ∃ names e, source.Beneath folder names e ∧ path = descend folder (names ++ [e.name]) ∧
    path = join folder (route (names ++ [e.name])) ∧
    ∀ kind, (Entry.below (descend folder names) e.name kind).path = path

theorem Round.visits_routed {listed : List Entry} (h : source.Round folder place listed visits)
    (hlisted : (source.list folder).outcome = .ok listed) :
    ∀ v ∈ visits, source.Routed folder v.remotePath := by
  intro v hv
  obtain ⟨names, inner, hwalk, hinner, hmem⟩ :=
    h.visits_reached hlisted (List.Subset.refl _) v hv
  have hfolder : v.folder = descend folder names := hwalk.eq_descend
  have hlevels : v.remotePath = descend folder (names ++ [v.entry.name]) := by
    rw [Visit.remotePath, descend_concat, hfolder]
  refine ⟨names, v.entry, ⟨v.folder, inner, hwalk, hinner, hmem⟩, hlevels, ?_, fun kind => ?_⟩
  · rw [hlevels, descend_eq_join]
    exact List.append_ne_nil_of_right_ne_nil _ (List.cons_ne_nil _ _)
  · rw [Visit.remotePath, hfolder]
    rfl

/-- Behind the listing that it starts with, a download asks only about paths to entries, and it
reports only such paths as failed. -/
theorem download_routed (source : Source) (folder : String) (ends : source.Ends folder)
    (root : Path) (h : Host) :
    let step := source.download folder ends root
    (∃ asked, (step.after h).questions = h.questions ++ .list folder :: asked ∧
      ∀ q ∈ asked, source.Routed folder q.path) ∧
    ∀ report, step.answer h = .ok report → ∀ f ∈ report.failures, source.Routed folder f.1 := by
  intro step
  have hasked := source.questions_after_askListing folder h
  cases hlisted : (source.list folder).outcome with
  | error cause =>
    have hstep : step h = _ := download_unlisted hlisted ends root h
    rw [Act.answer, Act.after, hstep]
    refine ⟨⟨[], hasked, fun q hq => absurd hq List.not_mem_nil⟩, fun report hreport => ?_⟩
    cases hreport
  | ok entries =>
    obtain ⟨others, htours, (hstep : step h = _)⟩ := download_listed hlisted ends root h
    obtain ⟨visits, htour, hanswer, hquestions⟩ := htours ((source.askListing folder).after h)
    have hrouted := htour.round.visits_routed hlisted
    rw [Act.answer, Act.after, hstep]
    constructor
    · refine ⟨visits.filterMap Visit.question?, ?_, fun q hq => ?_⟩
      · show (others.after _).questions = _
        rw [hquestions, hasked, List.append_assoc]
        rfl
      · obtain ⟨v, hv, hvq⟩ := List.mem_filterMap.1 hq
        rw [Visit.path_of_question? hvq]
        exact hrouted v hv
    · intro report hreport f hf
      obtain rfl : reportOf visits = report := hanswer.symm.trans (Except.ok.inj hreport)
      obtain ⟨v, hv, hvf⟩ := List.mem_filterMap.1 hf
      rw [Visit.fst_of_failure? hvf]
      exact hrouted v hv

end Source

/-- **The laws of joining.**  Joining remote paths is associative, and a fragment of which
nothing is left is neutral, up to the slashes around the other one.  A joined path has no
slashes around it, and it is what the two keep with one slash between them if both keep
something.  So what a download asks about and reports below the directory `a` goes by paths
that are put together level by level, and each of them is `a` joined with the whole way. -/
theorem join_laws (a b c : String) :
    join (join a b) c = join a (join b c) ∧
    (∃ kept, Sheds a kept ∧ join a "" = kept ∧ join "" a = kept) ∧
    Bare (join a b) ∧
    (∀ p q, Sheds a p → Sheds b q → p ≠ "" → q ≠ "" → join a b = p ++ "/" ++ q) ∧
    (∀ names, names ≠ [] → descend a names = join a (route names)) ∧
    (∀ names, (∀ n ∈ names, Bare n ∧ n ≠ "") → route names = "/".intercalate names) ∧
    ∀ (source : Source) (ends : source.Ends a) (root : Path) (h : Host),
      let step := source.download a ends root
      (∃ asked, (step.after h).questions = h.questions ++ .list a :: asked ∧
        ∀ q ∈ asked, source.Routed a q.path) ∧
      ∀ report, step.answer h = .ok report → ∀ f ∈ report.failures, source.Routed a f.1 := by
  refine ⟨join_assoc a b c, ⟨trimSlashes a, sheds_iff.2 rfl, join_of_right a (by decide),
    join_of_left (by decide) a⟩, bare_join a b, fun p q hp hq hpne hqne => ?_,
    fun _ => descend_eq_join a, fun _ => route_eq_intercalate, fun source ends =>
      source.download_routed a ends⟩
  rw [sheds_iff.1 hp] at hpne ⊢
  rw [sheds_iff.1 hq] at hqne ⊢
  exact join_of_both hpne hqne

/-- A tree with a directory that is listed under a name with a slash behind it. -/
def slashedTree : StoredTree where
  listings := [("t", .held [(.directory, "d/")]), ("t/d", .held [(.file, "x")])]
  files := [("t/d/x", .held "x".toUTF8)]

theorem join_laws_slashedTree :
    join (join "/t/" "d//") "x" = join "/t/" (join "d//" "x") ∧
      join "/t/" "d//" = "t" ++ "/" ++ "d" ∧
      descend "t" ["d/", "x"] = join "t" (route ["d/", "x"]) ∧
      route ["d", "x"] = "/".intercalate ["d", "x"] ∧
      let step := slashedTree.toTree.toSource.download "t" (slashedTree.toTree.ends "t") ⟨"m"⟩
      ∃ asked, (step.after default).questions = .list "t" :: asked ∧
        ∀ q ∈ asked, slashedTree.toTree.toSource.Routed "t" q.path := by
  obtain ⟨hassoc, -, -, hboth, -⟩ := join_laws "/t/" "d//" "x"
  obtain ⟨-, -, -, -, hlevels, hroute, hdownload⟩ := join_laws "t" "d//" "x"
  have hnames : ∀ n ∈ ["d", "x"], Bare n ∧ n ≠ "" := by
    rintro n hn
    rcases List.mem_pair.1 hn with rfl | rfl
    · exact ⟨⟨by decide, by decide⟩, by decide⟩
    · exact ⟨⟨by decide, by decide⟩, by decide⟩
  exact ⟨hassoc, hboth "t" "d" (sheds_iff.2 (by decide)) (sheds_iff.2 (by decide)) (by decide)
    (by decide), hlevels ["d/", "x"] (by decide), hroute ["d", "x"] hnames,
    (hdownload _ (slashedTree.toTree.ends "t") ⟨"m"⟩ default).1⟩

end GemCourier.Remote
