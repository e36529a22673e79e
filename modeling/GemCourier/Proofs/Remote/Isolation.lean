/-
GemCourier/Proofs/Remote/Isolation.lean

One question that fails costs nothing but its own answer.

Two sources that answer alike, save that one question fails at the second, are
visited alike up to this question and behind it.  The visits of the first one
are cut where the question is asked (`Cut`): what lies below it is left out, the
visit itself turns into a failure, and everything else stays in its place and in
its order.  As each file fares as it does alone, no fate changes either, though
the disks of the two downloads differ from there on.

Main results: `Round.cut`, `Round.unique`, `download_isolated`.
-/
import GemCourier.Proofs.Remote.Alone

namespace GemCourier.Remote

/-- The failure to report for a question that was not answered. -/
def failureOf (cause : RemoteError) : Question → String × FetchError
  | .list path => (path, .listingFailed path cause)
  | .fetch path => (path, .downloadFailed path cause)

namespace Visit

variable {v w : Visit} {folder : String} {place : Path} {es es' : List Entry}

/-! ### What a visit asks -/

/-- The question that a visit asks if its name is plain. -/
def asks (v : Visit) : Question :=
  match v.entry.kind with
  | .file => .fetch v.remotePath
  | .directory => .list v.remotePath

/-- The visit as it turns out if its question fails. -/
def failed (v : Visit) (cause : RemoteError) : Visit where
  folder := v.folder
  place := v.place
  entry := v.entry
  fate := match v.entry.kind with
    | .file => .lost (.downloadFailed v.remotePath cause)
    | .directory => .unlisted cause

theorem path_asks (v : Visit) : v.asks.path = v.remotePath := by
  cases hkind : v.entry.kind <;> simp only [asks, hkind, Question.path]

theorem reportOf_failed (v : Visit) (cause : RemoteError) :
    reportOf [v.failed cause] = ⟨[], [failureOf cause v.asks]⟩ := by
  obtain ⟨folder, place, ⟨name, path, kind⟩, fate⟩ := v
  cases kind <;> rfl

/-! ### Remote places -/

/-- Nothing longer begins what it goes on from. -/
theorem not_prefix_of_append {front more : List String} (hmore : more ≠ []) :
    ¬ front ++ more <+: front := by
  intro h
  rw [← List.append_nil front, List.append_assoc, List.prefix_append_right_inj,
    List.nil_append, List.prefix_nil] at h
  exact hmore h

/-- Behind an entry lies what has its name as the next part, and the directory itself under the
empty name. -/
theorem Behind.parts_cases (h : v.Behind folder place es) :
    (∃ e ∈ es, ∃ more, parts v.remotePath = parts folder ++ e.name :: more) ∨
      parts v.remotePath = parts folder := by
  obtain ⟨hslash, front, hlies, e, he, hhead⟩ := h
  have hfront := parts_descend folder hlies.names
  rw [remotePath, hlies.folder]
  by_cases hname : v.entry.name = ""
  · rw [hname, join_empty, hfront]
    cases front with
    | nil => exact Or.inr (List.append_nil _)
    | cons n rest =>
      obtain rfl : n = e.name := by simpa using hhead
      exact Or.inl ⟨e, he, rest, rfl⟩
  · rw [parts_join _ hname hslash, hfront, List.append_assoc]
    obtain ⟨more, hmore⟩ := List.head?_eq_some_iff.1 hhead
    exact Or.inl ⟨e, he, more, by rw [hmore]⟩

theorem Behind.prefix_parts (h : v.Behind folder place es) :
    parts folder <+: parts v.remotePath := by
  rcases h.parts_cases with ⟨_, _, _, hparts⟩ | hparts
  · rw [hparts]
    exact List.prefix_append _ _
  · rw [hparts]

/-- What lies behind other names does not lie at or below what is asked for. -/
theorem Behind.aside (hv : v.Behind folder place es) (hplain : v.Plain)
    (hw : w.Behind folder place es') (hne : ∀ e ∈ es, ∀ e' ∈ es', e.name ≠ e'.name) :
    ¬ parts v.remotePath <+: parts w.remotePath := by
  obtain ⟨e, he, more, hv', -⟩ := hv.exists_names hplain
  rw [hv']
  rcases hw.parts_cases with ⟨e', he', others, hw'⟩ | hw' <;> rw [hw']
  · rw [List.prefix_append_right_inj, List.cons_prefix_cons]
    exact fun h => hne e he e' he' h.1
  · exact not_prefix_of_append (List.cons_ne_nil _ _)

/-- An entry lies behind itself. -/
theorem behind_self {e : Entry} {rest : List Entry} (horder : Orderly (e :: rest)) (fate : Fate) :
    (⟨folder, place, e, fate⟩ : Visit).Behind folder place [e] :=
  ⟨horder.head, [], ⟨rfl, rfl, by simp⟩, e, by simp, rfl⟩

/-- What lies behind an entry and what lies behind those after it lie beside each other. -/
theorem Behind.beside {e : Entry} {rest : List Entry} (horder : Orderly (e :: rest))
    (hv : v.Behind folder place [e]) (hw : w.Behind folder place rest) :
    (v.Plain → ¬ parts v.remotePath <+: parts w.remotePath) ∧
      (w.Plain → ¬ parts w.remotePath <+: parts v.remotePath) := by
  refine ⟨fun hplain => hv.aside hplain hw ?_, fun hplain => hw.aside hplain hv ?_⟩
  · intro e' he' e'' he''
    obtain rfl := List.mem_singleton.1 he'
    exact horder.fresh e'' he''
  · intro e' he' e'' he''
    obtain rfl := List.mem_singleton.1 he''
    exact (horder.fresh e' he').symm

end Visit

namespace Source

variable {source failing : Source} {q : Question} {cause : RemoteError} {folder : String}
  {place root : Path} {entries : List Entry} {visits visits' : List Visit} {d : Disk}

/-! ### Sources that differ at one question -/

/-- The second source answers as the first one, save that it fails at one question. -/
structure FailsAt (source failing : Source) (q : Question) (cause : RemoteError) : Prop where
  list : ∀ path, (failing.list path).outcome =
    if q = .list path then .error cause else (source.list path).outcome
  fetch : ∀ path, (failing.fetch path).outcome =
    if q = .fetch path then .error cause else (source.fetch path).outcome

theorem FailsAt.of_listed (hfails : source.FailsAt failing q cause) {path : String}
    (hlisted : (failing.list path).outcome = .ok entries) :
    (source.list path).outcome = .ok entries := by
  rw [hfails.list] at hlisted
  split at hlisted
  · cases hlisted
  · exact hlisted

theorem FailsAt.tidy (hfails : source.FailsAt failing q cause) (htidy : source.Tidy) :
    failing.Tidy :=
  fun _ _ hlisted => htidy _ _ (hfails.of_listed hlisted)

/-- Beside the question, both answer alike. -/
theorem FailsAt.same_aside (hfails : source.FailsAt failing q cause) {path : String}
    (haside : ¬ parts q.path <+: parts path) :
    (failing.list path).outcome = (source.list path).outcome ∧
      (failing.fetch path).outcome = (source.fetch path).outcome := by
  refine ⟨?_, ?_⟩
  · rw [hfails.list, if_neg]
    rintro rfl
    exact haside (List.prefix_refl _)
  · rw [hfails.fetch, if_neg]
    rintro rfl
    exact haside (List.prefix_refl _)

/-- Walking down ends where it ended before. -/
theorem FailsAt.ends (hfails : source.FailsAt failing q cause) (h : source.Ends folder) :
    failing.Ends folder := by
  induction h with
  | intro folder _ ih =>
    refine ⟨_, fun inner ⟨entries, hlisted, hleads⟩ => ih inner ?_⟩
    exact ⟨entries, hfails.of_listed hlisted, hleads⟩

/-! ### Rounds and questions -/

/-- A visit asks its question if its name is plain, and none otherwise. -/
theorem Round.question_eq (hround : source.Round folder place entries visits) :
    ∀ v ∈ visits, ∀ q, v.question? = some q ↔ v.Plain ∧ q = v.asks := by
  have hasks : ∀ {v : Visit}, v.Plain → v.question? = some v.asks →
      ∀ q, v.question? = some q ↔ v.Plain ∧ q = v.asks := by
    intro v hplain hasked q
    rw [hasked]
    simp [hplain, eq_comm]
  induction hround with
  | done => simp
  | @refused folder place e _ _ hname _ ih =>
    intro v hv
    rcases List.mem_cons.1 hv with rfl | hv
    · simp [Visit.question?, Visit.Plain, hname]
    · exact ih v hv
  | @file folder place e fate _ _ hname hkind hfate _ ih =>
    intro v hv
    rcases List.mem_cons.1 hv with rfl | hv
    · refine hasks hname ?_
      rcases hfate with rfl | ⟨cause, rfl⟩ <;> simp [Visit.question?, Visit.asks, hkind]
    · exact ih v hv
  | @unlisted folder place e _ _ _ hname hkind _ _ ih =>
    intro v hv
    rcases List.mem_cons.1 hv with rfl | hv
    · exact hasks hname (by simp [Visit.question?, Visit.asks, hkind])
    · exact ih v hv
  | @entered folder place e _ _ _ _ hname hkind _ _ _ ihbelow ih =>
    intro v hv
    rcases List.mem_cons.1 hv with rfl | hv
    · exact hasks hname (by simp [Visit.question?, Visit.asks, hkind])
    · rcases List.mem_append.1 hv with hv | hv
      · exact ihbelow v hv
      · exact ih v hv

/-- A source that fails at a question that is not asked is visited in the same way. -/
theorem Round.unasked (hfails : source.FailsAt failing q cause)
    (hround : source.Round folder place entries visits)
    (hunasked : ∀ v ∈ visits, v.question? ≠ some q) :
    failing.Round folder place entries visits := by
  induction hround with
  | done => exact .done
  | refused hname _ ih => exact .refused hname (ih fun v hv => hunasked v (by simp [hv]))
  | file hname hkind hfate _ ih =>
    exact .file hname hkind hfate (ih fun v hv => hunasked v (by simp [hv]))
  | @unlisted folder place e _ _ _ hname hkind hlisted _ ih =>
    have hne : q ≠ .list (join folder e.name) :=
      fun h => hunasked _ List.mem_cons_self (by rw [h]; rfl)
    refine .unlisted hname hkind ?_ (ih fun v hv => hunasked v (by simp [hv]))
    rw [hfails.list, if_neg hne, hlisted]
  | @entered folder place e _ _ _ _ hname hkind hlisted _ _ ihbelow ih =>
    have hne : q ≠ .list (join folder e.name) :=
      fun h => hunasked _ List.mem_cons_self (by rw [h]; rfl)
    refine .entered hname hkind ?_ (ihbelow fun v hv => hunasked v (by simp [hv]))
      (ih fun v hv => hunasked v (by simp [hv]))
    rw [hfails.list, if_neg hne, hlisted]

/-- Visits of the same entries differ in nothing but the fates of files. -/
theorem Round.unique (fate : String → Path → Fate)
    (hround : source.Round folder place entries visits)
    (hround' : source.Round folder place entries visits')
    (hfate : ∀ v ∈ visits, v.IsFile → v.fate = fate v.remotePath v.localPath)
    (hfate' : ∀ v ∈ visits', v.IsFile → v.fate = fate v.remotePath v.localPath) :
    visits = visits' := by
  induction hround generalizing visits' with
  | done =>
    cases hround'
    rfl
  | refused hname _ ih =>
    cases hround' with
    | refused _ hrest =>
      rw [ih hrest (fun v hv => hfate v (by simp [hv])) fun v hv => hfate' v (by simp [hv])]
    | file hname' => rw [hname] at hname'; cases hname'
    | unlisted hname' => rw [hname] at hname'; cases hname'
    | entered hname' => rw [hname] at hname'; cases hname'
  | file hname hkind _ _ ih =>
    cases hround' with
    | refused hname' => rw [hname] at hname'; cases hname'
    | file _ _ _ hrest =>
      have hsame := (hfate _ List.mem_cons_self ⟨hname, hkind⟩).trans
        (hfate' _ List.mem_cons_self ⟨hname, hkind⟩).symm
      dsimp only at hsame
      rw [hsame, ih hrest (fun v hv => hfate v (by simp [hv])) fun v hv => hfate' v (by simp [hv])]
    | unlisted _ hkind' => rw [hkind] at hkind'; cases hkind'
    | entered _ hkind' => rw [hkind] at hkind'; cases hkind'
  | unlisted hname hkind hlisted _ ih =>
    cases hround' with
    | refused hname' => rw [hname] at hname'; cases hname'
    | file _ hkind' => rw [hkind] at hkind'; cases hkind'
    | unlisted _ _ hlisted' hrest =>
      obtain rfl := Except.error.inj (hlisted.symm.trans hlisted')
      rw [ih hrest (fun v hv => hfate v (by simp [hv])) fun v hv => hfate' v (by simp [hv])]
    | entered _ _ hlisted' => rw [hlisted] at hlisted'; cases hlisted'
  | entered hname hkind hlisted _ _ ihbelow ih =>
    cases hround' with
    | refused hname' => rw [hname] at hname'; cases hname'
    | file _ hkind' => rw [hkind] at hkind'; cases hkind'
    | unlisted _ _ hlisted' => rw [hlisted] at hlisted'; cases hlisted'
    | entered _ _ hlisted' hbelow hrest =>
      obtain rfl := Except.ok.inj (hlisted.symm.trans hlisted')
      rw [ihbelow hbelow (fun v hv => hfate v (by simp [hv])) fun v hv => hfate' v (by simp [hv]),
        ih hrest (fun v hv => hfate v (by simp [hv])) fun v hv => hfate' v (by simp [hv])]

/-! ### Cutting a round -/

/-- Visits cut at the one that asks a question: what comes before it, what lies below it, and
what comes later.  Nothing but what lies below it has a remote path at or below its own. -/
structure Cut (q : Question) (visits before : List Visit) (v : Visit)
    (below later : List Visit) : Prop where
  visits : visits = before ++ v :: (below ++ later)
  plain : v.Plain
  asks : v.asks = q
  below : ∀ w ∈ below, ∃ inner, w.Behind v.remotePath v.localPath inner
  aside : ∀ w ∈ before ++ later, ¬ parts q.path <+: parts w.remotePath

namespace Cut

variable {before below later front back : List Visit} {v : Visit}

/-- Cutting some visits cuts them with others around them as well. -/
theorem around (front : List Visit) (h : Cut q visits before v below later)
    (hfront : ∀ w ∈ front, ¬ parts q.path <+: parts w.remotePath)
    (hback : ∀ w ∈ back, ¬ parts q.path <+: parts w.remotePath) :
    Cut q (front ++ visits ++ back) (front ++ before) v below (later ++ back) where
  visits := by simp [h.visits]
  plain := h.plain
  asks := h.asks
  below := h.below
  aside := by
    intro w hw
    simp only [List.mem_append] at hw
    rcases hw with (hw | hw) | hw | hw
    · exact hfront w hw
    · exact h.aside w (by simp [hw])
    · exact h.aside w (by simp [hw])
    · exact hback w hw

theorem after (front : List Visit) (h : Cut q visits before v below later)
    (hfront : ∀ w ∈ front, ¬ parts q.path <+: parts w.remotePath) :
    Cut q (front ++ visits) (front ++ before) v below later := by
  simpa using h.around front hfront (List.forall_mem_nil _)

theorem path_eq (h : Cut q visits before v below later) : q.path = v.remotePath := by
  rw [← h.asks, Visit.path_asks]

theorem mem_of_lost {w : Visit} (h : Cut q visits before v below later) (hw : w ∈ v :: below) :
    w ∈ visits := by
  rw [h.visits]
  rcases List.mem_cons.1 hw with rfl | hw
  · simp
  · simp [hw]

theorem mem_of_kept {w : Visit} (h : Cut q visits before v below later)
    (hw : w ∈ before ++ later) : w ∈ visits := by
  rw [h.visits]
  rcases List.mem_append.1 hw with hw | hw <;> simp [hw]

/-- The first visit asks the question. -/
theorem first (hplain : v.Plain)
    (hbelow : ∀ w ∈ below, ∃ inner, w.Behind v.remotePath v.localPath inner)
    (haside : ∀ w ∈ later, ¬ parts v.asks.path <+: parts w.remotePath) :
    Cut v.asks (v :: (below ++ later)) [] v below later where
  visits := rfl
  plain := hplain
  asks := rfl
  below := hbelow
  aside := haside

end Cut

/-- A visit beside a question does not ask it. -/
theorem question?_ne_of_aside {w : Visit} (hw : ∀ q, w.question? = some q ↔ w.Plain ∧ q = w.asks)
    (haside : ¬ parts q.path <+: parts w.remotePath) : w.question? ≠ some q := by
  intro hq
  rw [((hw q).1 hq).2, Visit.path_asks] at haside
  exact haside (List.prefix_refl _)

section Cutting

variable {e : Entry} {rest : List Entry} {before below later : List Visit} {v w : Visit}

/-- What asks a question behind the entries after one is cut with all that comes before. -/
theorem Cut.next (front : List Visit) (htidy : source.Tidy) (horder : Orderly (e :: rest))
    (hrest : source.Round folder place rest visits) (h : Cut q visits before v below later)
    (hfront : ∀ w ∈ front, w.Behind folder place [e]) :
    Cut q (front ++ visits) (front ++ before) v below later := by
  have hv := hrest.behind htidy horder.others v (by simp [h.visits])
  refine h.after front fun w hw => ?_
  rw [h.path_eq]
  exact ((hfront w hw).beside horder hv).2 h.plain

/-- What asks a question below a directory is asked beside the directory itself, and beside all
that is visited after it. -/
theorem Cut.inside {inner : List Entry} {under : List Visit} (htidy : source.Tidy)
    (horder : Orderly (e :: rest)) (hname : isPlainName e.name = true)
    (hrest : source.Round folder place rest visits)
    (hbehind : ∀ w ∈ under, w.Behind (join folder e.name) (place.child e.name) inner)
    (h : Cut q under before v below later) :
    ¬ parts q.path <+: parts (join folder e.name) ∧
      ∀ w ∈ visits, ¬ parts q.path <+: parts w.remotePath := by
  have hv := hbehind v (by simp [h.visits])
  rw [h.path_eq]
  constructor
  · obtain ⟨_, _, more, hpath, -⟩ := hv.exists_names h.plain
    rw [hpath]
    exact Visit.not_prefix_of_append (List.cons_ne_nil _ _)
  · intro w hw
    have hfront : v.Behind folder place [e] :=
      hv.outer (isEntryName_of_isPlainName hname horder.head)
    exact (hfront.beside horder (hrest.behind htidy horder.others w hw)).1 h.plain

/-- What asks a question before the other entries is cut from them, and the source that fails
at it is visited without what lies below. -/
theorem Round.cut_first {fate : Fate} (htidy : source.Tidy)
    (hfails : source.FailsAt failing (Visit.mk folder place e fate).asks cause)
    (horder : Orderly (e :: rest)) (hname : isPlainName e.name = true)
    (hrest : source.Round folder place rest visits)
    (hbelow : ∀ w ∈ below, ∃ inner, w.Behind (join folder e.name) (place.child e.name) inner) :
    Cut (Visit.mk folder place e fate).asks (⟨folder, place, e, fate⟩ :: (below ++ visits)) []
        ⟨folder, place, e, fate⟩ below visits ∧
      failing.Round folder place (e :: rest)
        ((Visit.mk folder place e fate).failed cause :: visits) := by
  have haside : ∀ w ∈ visits,
      ¬ parts (Visit.mk folder place e fate).asks.path <+: parts w.remotePath := by
    intro w hw
    rw [Visit.path_asks]
    exact ((Visit.behind_self horder fate).beside horder
      (hrest.behind htidy horder.others w hw)).1 hname
  have hrest' := hrest.unasked hfails fun w hw =>
    question?_ne_of_aside (hrest.question_eq w hw) (haside w hw)
  refine ⟨.first hname hbelow haside, ?_⟩
  rw [Visit.failed]
  dsimp only
  cases hkind : e.kind with
  | file => exact .file hname hkind (Or.inr ⟨_, rfl⟩) hrest'
  | directory =>
    refine .unlisted hname hkind ?_ hrest'
    rw [hfails.list, if_pos]
    simp [Visit.asks, hkind, Visit.remotePath]

/-- Where a question is asked, the visits are cut, and the source that fails at it is visited
without what lies below. -/
theorem Round.cut (htidy : source.Tidy) (hfails : source.FailsAt failing q cause)
    (hround : source.Round folder place entries visits) (horder : Orderly entries)
    (hv : v ∈ visits) (hq : v.question? = some q) :
    ∃ before below later, Cut q visits before v below later ∧
      failing.Round folder place entries (before ++ v.failed cause :: later) := by
  have hquestion := hround.question_eq
  induction hround with
  | done => cases hv
  | @refused folder place e rest visits hname hrest ih =>
    rcases List.mem_cons.1 hv with rfl | hv
    · cases hq
    · obtain ⟨before, below, later, hcut, hfailing⟩ :=
        ih horder.others hv fun w hw => hquestion w (by simp [hw])
      exact ⟨_, below, later, hcut.next [_] htidy horder hrest
        (List.forall_mem_singleton.2 (Visit.behind_self horder _)), .refused hname hfailing⟩
  | @file folder place e fate rest visits hname hkind hfate hrest ih =>
    rcases List.mem_cons.1 hv with rfl | hv
    · obtain ⟨-, rfl⟩ := (hquestion _ List.mem_cons_self q).1 hq
      exact ⟨[], [], visits,
        hrest.cut_first htidy hfails horder hname (List.forall_mem_nil _)⟩
    · obtain ⟨before, below, later, hcut, hfailing⟩ :=
        ih horder.others hv fun w hw => hquestion w (by simp [hw])
      exact ⟨_, below, later, hcut.next [_] htidy horder hrest
        (List.forall_mem_singleton.2 (Visit.behind_self horder _)),
        .file hname hkind hfate hfailing⟩
  | @unlisted folder place e cause' rest visits hname hkind hlisted hrest ih =>
    rcases List.mem_cons.1 hv with rfl | hv
    · obtain ⟨-, rfl⟩ := (hquestion _ List.mem_cons_self q).1 hq
      exact ⟨[], [], visits,
        hrest.cut_first htidy hfails horder hname (List.forall_mem_nil _)⟩
    · obtain ⟨before, below, later, hcut, hfailing⟩ :=
        ih horder.others hv fun w hw => hquestion w (by simp [hw])
      have hcut' := hcut.next [_] htidy horder hrest
        (List.forall_mem_singleton.2 (Visit.behind_self horder (.unlisted cause')))
      have haside := hcut'.aside ⟨folder, place, e, .unlisted cause'⟩ (by simp)
      refine ⟨_, below, later, hcut', .unlisted hname hkind ?_ hfailing⟩
      exact (hfails.same_aside haside).1.trans hlisted
  | @entered folder place e inner under rest visits hname hkind hlisted hunder hrest ihunder ih =>
    have hinner := htidy _ _ hlisted
    have hbehind := hunder.behind htidy hinner
    have hfront : ∀ w ∈ ⟨folder, place, e, .entered⟩ :: under, w.Behind folder place [e] :=
      List.forall_mem_cons.2 ⟨Visit.behind_self horder _, fun w hw =>
        (hbehind w hw).outer (isEntryName_of_isPlainName hname horder.head)⟩
    rcases List.mem_cons.1 hv with rfl | hv
    · obtain ⟨-, rfl⟩ := (hquestion _ List.mem_cons_self q).1 hq
      exact ⟨[], under, visits, hrest.cut_first htidy hfails horder hname
        fun w hw => ⟨inner, hbehind w hw⟩⟩
    · rcases List.mem_append.1 hv with hv | hv
      · -- the directory is entered all the same, and what lies below it is cut
        obtain ⟨before, below, later, hcut, hfailing⟩ :=
          ihunder hinner hv fun w hw => hquestion w (by simp [hw])
        obtain ⟨hself, hbeside⟩ := hcut.inside htidy horder hname hrest hbehind
        have hcut' := hcut.around [⟨folder, place, e, .entered⟩]
          (List.forall_mem_singleton.2 hself) hbeside
        refine ⟨_, below, _, by simpa using hcut', ?_⟩
        have hfailing' : failing.Round folder place (e :: rest) _ := .entered hname hkind
          ((hfails.same_aside hself).1.trans hlisted) hfailing (hrest.unasked hfails fun w hw =>
            question?_ne_of_aside (hquestion w (by simp [hw])) (hbeside w hw))
        simpa using hfailing'
      · obtain ⟨before, below, later, hcut, hfailing⟩ :=
          ih horder.others hv fun w hw => hquestion w (by simp [hw])
        have hcut' := hcut.next _ htidy horder hrest hfront
        have haside : ∀ w ∈ ⟨folder, place, e, .entered⟩ :: under,
            ¬ parts q.path <+: parts w.remotePath := fun w hw =>
          hcut'.aside w (List.mem_append_left _ (List.mem_append_left _ hw))
        refine ⟨_, below, later, by simpa using hcut', ?_⟩
        have hfailing' : failing.Round folder place (e :: rest) _ := .entered hname hkind
          ((hfails.same_aside (haside _ List.mem_cons_self)).1.trans hlisted)
          (hunder.unasked hfails fun w hw => question?_ne_of_aside (hquestion w (by simp [hw]))
            (haside w (by simp [hw]))) hfailing
        simpa using hfailing'

end Cutting

/-! ### Two downloads -/

/-- Beside the question, a file fares alike. -/
theorem FailsAt.alone_aside (hfails : source.FailsAt failing q cause) {remotePath : String}
    (haside : ¬ parts q.path <+: parts remotePath) (localPath : Path) (d : Disk) :
    failing.alone remotePath localPath d = source.alone remotePath localPath d := by
  rw [alone, alone, (hfails.same_aside haside).2]

/-- The file that is not fetched any more is lost. -/
theorem FailsAt.alone_failed {v : Visit} (hfails : source.FailsAt failing v.asks cause)
    (hkind : v.entry.kind = .file) (localPath : Path) (d : Disk) :
    failing.alone v.remotePath localPath d = (v.failed cause).fate := by
  have hfetch : (failing.fetch v.remotePath).outcome = .error cause := by
    rw [hfails.fetch, if_pos]
    simp [Visit.asks, hkind]
  rw [alone, hfetch, Visit.failed]
  simp [hkind]

/-- Where a directory can be listed, its download is not given up. -/
theorem download_ok (hlisted : (source.list folder).outcome = .ok entries)
    (ends : source.Ends folder) (root : Path) (h : Host) :
    ∃ report, (source.download folder ends root).answer h = .ok report := by
  obtain ⟨_, -, hstep⟩ := download_listed hlisted ends root h
  exact ⟨_, congrArg Prod.fst hstep⟩

/-- Visits that are asked for lie at or below each other locally as they do remotely. -/
theorem parts_prefix_of_components {v w : Visit} (hv : v.Behind folder root entries)
    (hw : w.Behind folder root entries) (hvplain : v.Plain) (hwplain : w.Plain)
    (h : v.localPath.components <+: w.localPath.components) :
    parts v.remotePath <+: parts w.remotePath := by
  obtain ⟨names, hvbelow, hvparts⟩ := hv.exists_below hvplain
  obtain ⟨others, hwbelow, hwparts⟩ := hw.exists_below hwplain
  rw [hvbelow.components_eq, hwbelow.components_eq, List.prefix_append_right_inj,
    List.prefix_map_iff_of_injective fun _ _ => Component.name.inj] at h
  rw [hvparts, hwparts, List.prefix_append_right_inj]
  exact h

/-- What the visit at the cut and those below it report lies at its place or below. -/
theorem Cut.lost {before below later : List Visit} {v : Visit}
    (hcut : Cut q visits before v below later) :
    (∀ w ∈ v :: below, w.Plain → v.localPath.components <+: w.localPath.components) ∧
      ∀ f ∈ (reportOf (v :: below)).failures, parts q.path <+: parts f.1 := by
  constructor
  · intro w hw hplain
    rcases List.mem_cons.1 hw with rfl | hw
    · exact List.prefix_refl _
    · obtain ⟨inner, hunder⟩ := hcut.below w hw
      obtain ⟨_, _, _, -, hw'⟩ := hunder.exists_names hplain
      rw [hw']
      exact List.prefix_append _ _
  · intro f hf
    obtain ⟨w, hw, hf⟩ := List.mem_filterMap.1 hf
    rw [Visit.fst_of_failure? hf, hcut.path_eq]
    rcases List.mem_cons.1 hw with rfl | hw
    · exact List.prefix_refl _
    · obtain ⟨inner, hunder⟩ := hcut.below w hw
      exact hunder.prefix_parts

/-- What the other visits report lies neither at its place nor below. -/
theorem Cut.kept {before below later : List Visit} {v : Visit}
    (hcut : Cut q visits before v below later)
    (hbehind : ∀ w ∈ visits, w.Behind folder root entries) :
    (∀ w ∈ before ++ later, w.Plain → ¬ v.localPath.components <+: w.localPath.components) ∧
      ∀ f ∈ (reportOf (before ++ later)).failures, ¬ parts q.path <+: parts f.1 := by
  constructor
  · intro w hw hplain hinitial
    have hparts : parts v.remotePath <+: parts w.remotePath :=
      parts_prefix_of_components (hbehind v (by simp [hcut.visits]))
        (hbehind w (hcut.mem_of_kept hw)) hcut.plain hplain hinitial
    rw [← hcut.path_eq] at hparts
    exact hcut.aside w hw hparts
  · intro f hf
    obtain ⟨w, hw, hf⟩ := List.mem_filterMap.1 hf
    rw [Visit.fst_of_failure? hf]
    exact hcut.aside w hw

/-- The visits of the source that fails at the question fare as they do alone. -/
theorem Cut.fates {before below later : List Visit} {v : Visit}
    (hcut : Cut q visits before v below later) (hfails : source.FailsAt failing q cause)
    (hfates : ∀ w ∈ visits, w.IsFile → w.fate = source.alone w.remotePath w.localPath d) :
    ∀ w ∈ before ++ v.failed cause :: later, w.IsFile →
      w.fate = failing.alone w.remotePath w.localPath d := by
  intro w hw hfile
  have hkept : w ∈ before ++ later → w.fate = failing.alone w.remotePath w.localPath d := fun hw =>
    (hfates w (hcut.mem_of_kept hw) hfile).trans
      (hfails.alone_aside (hcut.aside w hw) w.localPath d).symm
  rcases List.mem_append.1 hw with hw | hw
  · exact hkept (List.mem_append_left _ hw)
  · rcases List.mem_cons.1 hw with rfl | hw
    · obtain rfl := hcut.asks
      exact (hfails.alone_failed hfile.2 _ _).symm
    · exact hkept (List.mem_append_right _ hw)

/-- If one question that a download asked fails, the other download is not given up either.  It
reports the same, save that what lies at the place of the question or below is left out and one
failure stands in its place, and what both save reads the same after both. -/
theorem download_isolated (source failing : Source) (folder : String) (ends : source.Ends folder)
    (root : Path) (h : Host) (q : Question) (cause : RemoteError) (htidy : source.Tidy)
    (hfails : source.FailsAt failing q cause) (hfree : h.disk.LinkFreeBelow root)
    (report : FetchReport) (hok : (source.download folder ends root).answer h = .ok report)
    (hasked : ∃ asked, ((source.download folder ends root).after h).questions =
      h.questions ++ .list folder :: asked ∧ q ∈ asked) :
    let after := ((source.download folder ends root).after h).disk
    let step := failing.download folder (hfails.ends ends) root
    ∃ names before lost later, names ≠ [] ∧ (∀ n ∈ names, IsEntryName n) ∧
      q.path = descend folder names ∧ report = before ++ lost ++ later ∧
      step.answer h = .ok (before ++ ⟨[], [failureOf cause q]⟩ ++ later) ∧
      (∀ p ∈ lost.saved, (root.descend names).components <+: p.components) ∧
      (∀ p ∈ before.saved ++ later.saved, ¬ (root.descend names).components <+: p.components) ∧
      (∀ f ∈ lost.failures, parts q.path <+: parts f.1) ∧
      (∀ f ∈ before.failures ++ later.failures, ¬ parts q.path <+: parts f.1) ∧
      ∀ p ∈ before.saved ++ later.saved, ∃ bytes, after.readFile p = .ok bytes ∧
        (step.after h).disk.readFile p = .ok bytes := by
  intro after step
  obtain ⟨entries, visits, hlisted, hround, hcarries, hfates, rfl, hquestions⟩ :=
    download_fates htidy hfree hok
  have horder := htidy _ _ hlisted
  have hbehind := hround.behind htidy horder
  -- the visit that asks the question, and what is visited if it fails
  obtain ⟨v, hv, hq⟩ : ∃ v ∈ visits, v.question? = some q := by
    obtain ⟨asked, hasked, hmem⟩ := hasked
    rw [hquestions] at hasked
    obtain rfl := (List.cons.inj (List.append_cancel_left hasked)).2
    exact List.mem_filterMap.1 hmem
  obtain ⟨before, below, later, hcut, hround'⟩ := hround.cut htidy hfails horder hv hq
  -- the other download visits just this
  have hself : ¬ parts q.path <+: parts folder := by
    obtain ⟨names, -, hnames⟩ := (hbehind v hv).exists_below hcut.plain
    rw [hcut.path_eq, hnames]
    exact Visit.not_prefix_of_append (by simp)
  have hlisted' := (hfails.same_aside hself).1.trans hlisted
  obtain ⟨report', hok'⟩ := download_ok hlisted' (hfails.ends ends) root h
  obtain ⟨_, visits', hlisted'', hround'', hcarries', hfates', rfl, -⟩ :=
    download_fates (hfails.tidy htidy) hfree hok'
  obtain rfl := Except.ok.inj (hlisted'.symm.trans hlisted'')
  obtain rfl := hround''.unique (fun remotePath localPath =>
    failing.alone remotePath localPath h.disk) hround' hfates' (hcut.fates hfails hfates)
  obtain ⟨hslash, front, hlies, -⟩ := hbehind v hv
  obtain ⟨hlost, hlostFailures⟩ := hcut.lost
  obtain ⟨hkept, hkeptFailures⟩ := hcut.kept hbehind
  rw [hlies.localPath] at hlost hkept
  have hsaved : ∀ p ∈ (reportOf before).saved ++ (reportOf later).saved,
      ∃ w ∈ before ++ later, w.fate = .saved ∧ w.IsFile ∧ w.localPath = p := by
    intro p hp
    have hp' : p ∈ (reportOf (before ++ later)).saved := by
      rw [reportOf_append]
      exact hp
    obtain ⟨w, hw, hp⟩ := List.mem_filterMap.1 hp'
    exact ⟨w, hw, hcarries.saved (hcut.mem_of_kept hw) hp⟩
  refine ⟨front ++ [v.entry.name], reportOf before, reportOf (v :: below), reportOf later, by simp,
    hlies.isEntryName (isEntryName_of_isPlainName hcut.plain hslash),
    hcut.path_eq.trans hlies.remotePath, ?_, ?_, ?_, ?_, hlostFailures, ?_, ?_⟩
  · rw [← reportOf_append, ← reportOf_append, hcut.visits, List.append_assoc, List.cons_append]
  · rw [← hcut.asks, ← Visit.reportOf_failed, ← reportOf_append, ← reportOf_append,
      List.append_assoc]
    exact hok'
  · intro p hp
    obtain ⟨w, hw, hp⟩ := List.mem_filterMap.1 hp
    obtain ⟨-, hfile, rfl⟩ := hcarries.saved (hcut.mem_of_lost hw) hp
    exact hlost w hw hfile.1
  · intro p hp
    obtain ⟨w, hw, -, hfile, rfl⟩ := hsaved p hp
    exact hkept w hw hfile.1
  · intro f hf
    refine hkeptFailures f ?_
    rw [reportOf_append]
    exact hf
  · intro p hp
    obtain ⟨w, hw, hfate, -, rfl⟩ := hsaved p hp
    obtain ⟨bytes, hfetch, hread⟩ :=
      hround.readFile htidy horder hcarries hfree w (hcut.mem_of_kept hw) hfate
    have hw' : w ∈ before ++ v.failed cause :: later := by
      rcases List.mem_append.1 hw with hw | hw <;> simp [hw]
    obtain ⟨bytes', hfetch', hread'⟩ :=
      hround'.readFile (hfails.tidy htidy) horder hcarries' hfree w hw' hfate
    rw [(hfails.same_aside (hcut.aside w hw)).2, hfetch] at hfetch'
    obtain rfl := Except.ok.inj hfetch'
    exact ⟨bytes, hread, hread'⟩

/-- The source with one question that fails. -/
def failAt (source : Source) (q : Question) (cause : RemoteError) : Source where
  list path := if q = .list path then ⟨.error cause, []⟩ else source.list path
  fetch path := if q = .fetch path then ⟨.error cause, []⟩ else source.fetch path

theorem failsAt_failAt (source : Source) (q : Question) (cause : RemoteError) :
    source.FailsAt (source.failAt q cause) q cause where
  list path := by
    rw [failAt]
    dsimp only
    split <;> rfl
  fetch path := by
    rw [failAt]
    dsimp only
    split <;> rfl

end Source

/-- The directory of the nested tree cannot be listed any more: what was saved from it is left
out, and nothing else is. -/
theorem download_isolated_nestedTree :
    let source := nestedTree.toTree.toSource
    let cause : RemoteError := .status "list:t/d" 500
    let hfails := source.failsAt_failAt (.list "t/d") cause
    let step := source.download "t" (nestedTree.toTree.ends "t") ⟨"m"⟩
    let step' := (source.failAt (.list "t/d") cause).download "t"
      (hfails.ends (nestedTree.toTree.ends "t")) ⟨"m"⟩
    ∃ before lost later, step.answer ⟨olderDisk, []⟩ = .ok (before ++ lost ++ later) ∧
      step'.answer ⟨olderDisk, []⟩ =
        .ok (before ++ ⟨[], [("t/d", .listingFailed "t/d" cause)]⟩ ++ later) ∧
      ∀ p ∈ before.saved ++ later.saved, ∃ bytes,
        (step.after ⟨olderDisk, []⟩).disk.readFile p = .ok bytes ∧
        (step'.after ⟨olderDisk, []⟩).disk.readFile p = .ok bytes := by
  intro source cause hfails step step'
  have hlink : ∀ loc, olderDisk.link? loc = none := Disk.link?_eq_none (by simp [olderDisk])
  obtain ⟨report, hok⟩ := Source.download_ok listed_nestedTree (nestedTree.toTree.ends "t")
    ⟨"m"⟩ ⟨olderDisk, []⟩
  have hasked : ∃ asked, (step.after ⟨olderDisk, []⟩).questions =
      (⟨olderDisk, []⟩ : Host).questions ++ .list "t" :: asked ∧ .list "t/d" ∈ asked := by
    obtain ⟨_, visits, hlisted, htour, -, -, hquestions⟩ := Source.download_carried hok
    obtain rfl := Except.ok.inj (listed_nestedTree.symm.trans hlisted)
    refine ⟨_, hquestions, ?_⟩
    -- the second visit lists the directory
    have hpath : join "t" (Entry.below "t" "d" .directory).name = "t/d" := by decide +kernel
    have hinner : (nestedTree.toTree.list "t/d").outcome = .ok [.below "t/d" "b" .file] := rfl
    obtain ⟨_, _, fromD, rfl, -, hfromD⟩ := htour.of_file (by decide +kernel) rfl
    obtain ⟨below, _, more, rfl, -⟩ := hfromD.of_entered (by decide +kernel) rfl
      (by rw [hpath]; exact hinner)
    exact List.mem_filterMap.2 ⟨_, List.mem_cons_of_mem _ List.mem_cons_self,
      congrArg (fun path => some (Question.list path)) hpath⟩
  obtain ⟨names, before, lost, later, -, -, -, rfl, hok', -, -, -, -, hread⟩ :=
    Source.download_isolated source _ "t" (nestedTree.toTree.ends "t") ⟨"m"⟩ ⟨olderDisk, []⟩ _
      cause tidy_nestedTree hfails (fun _ _ _ => hlink _) report hok hasked
  exact ⟨before, lost, later, hok, hok', hread⟩

end GemCourier.Remote
