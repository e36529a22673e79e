/-
GemCourier/Proofs/Remote/Entries.lean

A download taken one entry at a time.

What a download does with a listed entry depends on its name, its kind and what
the source answers about it, and the way down into a directory is a recursion
inside the one along the listing.  `downloadEntries_rule` takes both apart at
once: what holds for no entries, and for one more entry in each of the five
cases, holds for every listing of every directory.

Asking a source changes nothing but the transcript, and adds one question to it.

Main result: `downloadEntries_rule`.
-/
import GemCourier.Proofs.Host.Directory
import GemCourier.Remote.Download

namespace GemCourier.Remote

/-! ### Asking -/

section Asking

variable {α : Type} {reply : Reply α}

theorem record_incident_questions (i : Incident) : (Act.record i.event).Keeps Host.questions := by
  intro h
  show (h.transcript ++ [i.event]).filterMap Event.question? = _
  rw [List.filterMap_append]
  cases i <;> exact List.append_nil _

theorem perform_keeps {γ : Type} (view : Host → γ)
    (hrecord : ∀ i : Incident, (Act.record i.event).Keeps view) : (perform reply).Keeps view := by
  -- what happens on the way is recorded one incident after the other
  have hall : ∀ incidents : List Incident,
      (incidents.forM fun i => Act.record i.event : Act Unit).Keeps view := by
    intro incidents
    induction incidents with
    | nil => exact .pure ()
    | cons i rest ih => exact .bind (hrecord i) fun _ => ih
  exact .bind (hall reply.incidents) fun _ => .pure _

@[simp] theorem answer_perform (h : Host) : (perform reply).answer h = reply.outcome := rfl

@[simp] theorem disk_after_perform (h : Host) : ((perform reply).after h).disk = h.disk :=
  perform_keeps Host.disk (fun _ _ => rfl) _

@[simp] theorem answer_ask (question : Question) (h : Host) :
    (ask question reply).answer h = reply.outcome := rfl

@[simp] theorem disk_after_ask (question : Question) (h : Host) :
    ((ask question reply).after h).disk = h.disk :=
  perform_keeps Host.disk (fun _ _ => rfl) _

@[simp] theorem questions_after_ask (question : Question) (h : Host) :
    ((ask question reply).after h).questions = h.questions ++ [question] := by
  have hasked : ((Act.record (.asked question)).after h).questions = h.questions ++ [question] := by
    show (h.transcript ++ [Event.asked question]).filterMap Event.question? = _
    rw [List.filterMap_append]
    rfl
  rw [← hasked]
  exact perform_keeps _ record_incident_questions _

end Asking

namespace Source

variable {source : Source}

@[simp] theorem disk_after_askListing (source : Source) (folder : String) (h : Host) :
    ((source.askListing folder).after h).disk = h.disk := by
  simp [askListing]

@[simp] theorem questions_after_askListing (source : Source) (folder : String) (h : Host) :
    ((source.askListing folder).after h).questions = h.questions ++ [.list folder] := by
  simp only [askListing, Act.after_bind, Act.after_pure, questions_after_ask]
  rw [Act.aloof_questions.note]

/-! ### Writing a file -/

theorem does_save {allowed : Deed → Prop} {localPath : Path} {bytes : ByteArray}
    (hmade : ∀ p : Path, p.components <+: localPath.components.dropLast → allowed (.made p))
    (hwrote : allowed (.wrote localPath bytes)) : (save localPath bytes).Does allowed := by
  refine .bind (Directory.does_ensureParent hmade) fun answer => ?_
  cases answer with
  | error e => exact .pure _
  | ok _ =>
    refine .bind (.change (.wrote localPath bytes) hwrote) fun answer => ?_
    cases answer <;> exact .pure _

theorem save_questions (localPath : Path) (bytes : ByteArray) :
    (save localPath bytes).Keeps Host.questions := by
  refine .bind (Directory.ensureParent_keeps Act.aloof_questions localPath) fun answer => ?_
  cases answer with
  | error e => exact .pure _
  | ok _ =>
    refine .bind (Act.aloof_questions.change _) fun answer => ?_
    cases answer <;> exact .pure _

/-! ### One entry, and then the others -/

/-- The accounts of one entry and then those of others. -/
def followed (here others : Act FetchReport) : Act FetchReport :=
  here >>= fun report => others >>= fun rest => pure (report ++ rest)

/-- What holds of downloading no entries, and of downloading one entry more, holds of
downloading any listed entries. -/
theorem downloadEntries_rule {P : String → Path → List Entry → Act FetchReport → Prop}
    (done : ∀ folder place, P folder place [] (pure .nothing))
    (refused : ∀ folder place e rest others, isPlainName e.name = false →
      P folder place rest others →
      P folder place (e :: rest) (followed (refuse (join folder e.name) e.name) others))
    (file : ∀ folder place e rest others, isPlainName e.name = true → e.kind = .file →
      P folder place rest others →
      P folder place (e :: rest)
        (followed (source.accountForFile (join folder e.name) (place.child e.name)) others))
    (unlisted : ∀ folder place e rest others cause, isPlainName e.name = true →
      e.kind = .directory → (source.list (join folder e.name)).outcome = .error cause →
      P folder place rest others →
      P folder place (e :: rest) (followed (source.askListing (join folder e.name) *>
        skipSubtree (join folder e.name) cause) others))
    (entered : ∀ folder place e rest others inner below, isPlainName e.name = true →
      e.kind = .directory → (source.list (join folder e.name)).outcome = .ok inner →
      P (join folder e.name) (place.child e.name) inner below → P folder place rest others →
      P folder place (e :: rest) (followed (source.askListing (join folder e.name) *> below) others))
    (folder : String) (ends : source.Ends folder) (place : Path) (entries : List Entry)
    (listed : ∀ e ∈ entries, ∃ all, (source.list folder).outcome = .ok all ∧ e ∈ all) :
    P folder place entries (source.downloadEntries folder ends place entries listed) := by
  induction folder, ends, place, entries, listed using downloadEntries.induct source with
  | case1 folder ends place listed =>
    rw [downloadEntries]
    exact done folder place
  | case2 folder ends place e rest listed child childPlace _ ihBelow ihRest =>
    -- the cases are those that the function goes through, in its order
    rw [downloadEntries]
    by_cases hname : isPlainName e.name = true
    · simp only [hname, dif_pos]
      split
      · next hkind => exact file _ _ _ _ _ hname hkind ihRest
      · next hkind =>
        split
        · next cause hlisted => exact unlisted _ _ _ _ _ _ hname hkind hlisted ihRest
        · next inner hlisted =>
          exact entered _ _ _ _ _ _ _ hname hkind hlisted (ihBelow hname hkind inner hlisted) ihRest
    · simp only [hname]
      exact refused _ _ _ _ _ (by simpa using hname) ihRest

end Source

end GemCourier.Remote
