/-
GemCourier/Proofs/Host/Directory.lean

What steps on a host do to its disk, and what making sure of a directory does.

`step.Does allowed` says that whatever host the step runs on, it changes the
disk by a run of allowed deeds.  The rules follow the way steps are put
together, so the deeds of a composite step are read off its parts.

Making sure of a directory makes nothing but directories named by parts of its
path.  Where it gives up, the failure names a part of the path, and what it says
of that part holds on the disk that is left (`Blocks`): something else than a
directory stands there, or what stands there cannot be found out, or nothing
does and no directory can be made.

Main results: `does_ensureParent`, `ensureOne_outcome`, `ensureParent_error`.
-/
import GemCourier.Proofs.Disk.Deeds
import GemCourier.Host.Directory

namespace GemCourier

namespace Act

variable {α β : Type} {allowed : Deed → Prop}

/-! ### Views that a step leaves alone -/

/-- Whatever host the step runs on, the view of it is the same afterwards. -/
def Keeps {γ : Type} (step : Act α) (view : Host → γ) : Prop :=
  ∀ h, view (step.after h) = view h

namespace Keeps

variable {γ : Type} {view : Host → γ}

theorem pure (a : α) : (Pure.pure a : Act α).Keeps view :=
  fun _ => rfl

theorem bind {step : Act α} {next : α → Act β} (hstep : step.Keeps view)
    (hnext : ∀ a, (next a).Keeps view) : (step >>= next).Keeps view :=
  fun h => (hnext _ _).trans (hstep h)

theorem disk : Act.disk.Keeps view :=
  fun _ => rfl

theorem note_disk (level : Level) (text : String) : (note level text).Keeps Host.disk :=
  fun _ => rfl

end Keeps

/-- The view sees neither the disk nor the notes. -/
structure Aloof {γ : Type} (view : Host → γ) : Prop where
  disk : ∀ h d, view { h with disk := d } = view h
  noted : ∀ h level text, view (h.record (.noted level text)) = view h

theorem aloof_questions : Aloof Host.questions where
  disk := fun _ _ => rfl
  noted := by
    intro h level text
    rw [Host.questions, Host.record, List.filterMap_append]
    exact List.append_nil _

theorem aloof_printed : Aloof Host.printed where
  disk := fun _ _ => rfl
  noted := by
    intro h level text
    rw [Host.printed, Host.record, List.filterMap_append]
    exact List.append_nil _

namespace Aloof

variable {γ : Type} {view : Host → γ}

theorem note (hview : Aloof view) (level : Level) (text : String) :
    (note level text).Keeps view :=
  fun h => hview.noted h level text

theorem change (hview : Aloof view) (f : Disk → Except Fault Disk) : (change f).Keeps view := by
  intro h
  cases hf : f h.disk with
  | ok d =>
    rw [(change_ok hf).2]
    exact hview.disk h d
  | error fault => rw [(change_error hf).2]

end Aloof

/-! ### Deeds of a step -/

/-- Whatever host the step runs on, it changes the disk by allowed deeds. -/
def Does (step : Act α) (allowed : Deed → Prop) : Prop :=
  ∀ h : Host, ∃ deeds, h.disk.Does deeds (step.after h).disk ∧ ∀ deed ∈ deeds, allowed deed

namespace Does

/-- A step that leaves the disk alone does nothing to it. -/
theorem of_keeps {step : Act α} (hdisk : step.Keeps Host.disk) :
    step.Does allowed := by
  intro h
  refine ⟨[], ?_, by simp⟩
  rw [hdisk h]
  exact .nothing h.disk

theorem pure (a : α) : (Pure.pure a : Act α).Does allowed :=
  of_keeps fun _ => rfl

theorem bind {step : Act α} {next : α → Act β} (hstep : step.Does allowed)
    (hnext : ∀ a, (next a).Does allowed) : (step >>= next).Does allowed := by
  intro h
  obtain ⟨deeds, hdeeds, hallowed⟩ := hstep h
  obtain ⟨more, hmore, hallowed'⟩ := hnext (step.answer h) (step.after h)
  refine ⟨deeds ++ more, hdeeds.append hmore, ?_⟩
  intro deed hdeed
  rcases List.mem_append.1 hdeed with hdeed | hdeed
  · exact hallowed deed hdeed
  · exact hallowed' deed hdeed

theorem seqRight {step : Act α} {next : Act β} (hstep : step.Does allowed)
    (hnext : next.Does allowed) : (step *> next).Does allowed :=
  hstep.bind fun _ => hnext

theorem mono {step : Act α} {wider : Deed → Prop} (hstep : step.Does allowed)
    (hwider : ∀ deed, allowed deed → wider deed) : step.Does wider := by
  intro h
  obtain ⟨deeds, hdeeds, hallowed⟩ := hstep h
  exact ⟨deeds, hdeeds, fun deed hdeed => hwider deed (hallowed deed hdeed)⟩

theorem disk : Act.disk.Does allowed :=
  of_keeps fun _ => rfl

theorem note (level : Level) (text : String) : (Act.note level text).Does allowed :=
  of_keeps fun _ => rfl

theorem print (line : Console.Line) : (Act.print line).Does allowed :=
  of_keeps fun _ => rfl

/-- Changing the disk by a deed is that deed, or nothing if it fails. -/
theorem change (deed : Deed) (hdeed : allowed deed) : (Act.change deed.run).Does allowed := by
  intro h
  cases hrun : deed.run h.disk with
  | ok d =>
    refine ⟨[deed], ?_, by simpa using hdeed⟩
    rw [(change_ok hrun).2]
    exact .one hrun
  | error fault =>
    refine ⟨[], ?_, by simp⟩
    rw [(change_error hrun).2]
    exact .nothing h.disk

theorem grows {step : Act α} (hstep : step.Does allowed) (h : Host) :
    h.disk.Grows (step.after h).disk := by
  obtain ⟨deeds, hdeeds, -⟩ := hstep h
  exact hdeeds.grows

end Does

end Act

/-! ### Making sure of a directory -/

namespace Path

theorem ofComponents_concat (cs : List Component) (c : Component) :
    ofComponents (cs ++ [c]) = (ofComponents cs).child c.text := by
  simp [ofComponents]

end Path

namespace DirectoryError

/-- The path a failure is about. -/
def path : DirectoryError → Path
  | notDirectory p => p
  | inspect p _ => p
  | create p _ => p

/-- What a failure says of its path holds on a disk. -/
def HoldsOn (d : Disk) : DirectoryError → Prop
  | notDirectory p => ∃ node, d.node p = .ok node ∧ node ≠ .folder
  | inspect p fault => d.node p = .error fault ∧ fault ≠ .notFound
  | create p fault => d.node p = .error .notFound ∧ d.makeFolder p = .error fault

/-- The way along some components is blocked: what a failure says of one of its parts, written from
one component at least, holds on the disk. -/
structure Blocks (d : Disk) (cs : List Component) (e : DirectoryError) : Prop where
  part : ∃ front c, front ++ [c] <+: cs ∧ e.path = Path.ofComponents (front ++ [c])
  holds : e.HoldsOn d

variable {d : Disk} {cs : List Component} {e : DirectoryError}

theorem HoldsOn.not_isFolder (h : e.HoldsOn d) : d.isFolder e.path = false := by
  refine Bool.eq_false_iff.2 fun hfolder => ?_
  rw [Disk.isFolder_iff] at hfolder
  cases e with
  | notDirectory p =>
    obtain ⟨node, hnode, hne⟩ := h
    exact hne (Except.ok.inj (hnode.symm.trans hfolder))
  | inspect p fault => cases h.1.symm.trans hfolder
  | create p fault => cases h.1.symm.trans hfolder

/-- A failure is for what stands at its path just if something does. -/
theorem HoldsOn.notDirectory_iff (h : e.HoldsOn d) :
    (∃ p, e = .notDirectory p) ↔ ∃ node, d.node e.path = .ok node := by
  cases e with
  | notDirectory p =>
    obtain ⟨node, hnode, -⟩ := h
    exact ⟨fun _ => ⟨node, hnode⟩, fun _ => ⟨p, rfl⟩⟩
  | inspect p fault =>
    refine ⟨(nomatch ·), fun ⟨node, hnode⟩ => ?_⟩
    cases h.1.symm.trans hnode
  | create p fault =>
    refine ⟨(nomatch ·), fun ⟨node, hnode⟩ => ?_⟩
    cases h.1.symm.trans hnode

end DirectoryError

namespace Directory

/-- A directory that is made is there afterwards, and one that cannot be made leaves the disk as
it was. -/
theorem create_cases (path : Path) (h : Host) :
    ((create path).answer h = .ok () ∧
        Deed.run (.made path) h.disk = .ok ((create path).after h).disk) ∨
      ∃ fault, (create path).answer h = .error (.create path fault) ∧
        h.disk.makeFolder path = .error fault ∧ ((create path).after h).disk = h.disk := by
  cases hmake : h.disk.makeFolder path with
  | ok d =>
    obtain ⟨hanswer, hafter⟩ := Act.change_ok (f := (·.makeFolder path)) hmake
    refine Or.inl ⟨?_, ?_⟩
    · simp [create, hanswer]
    · simp [create, hanswer, hafter, Deed.run, hmake]
  | error fault =>
    obtain ⟨hanswer, hafter⟩ := Act.change_error (f := (·.makeFolder path)) hmake
    refine Or.inr ⟨fault, ?_, rfl, ?_⟩
    · simp [create, hanswer]
    · simp [create, hanswer, hafter]

/-- What comes of making sure of one directory: it stands there, or nothing does and it is made, or
the attempt fails on the disk that it found, for what the failure says. -/
theorem ensureOne_outcome (path : Path) (h : Host) :
    ((ensureOne path).answer h = .ok 0 ∧ (ensureOne path).after h = h ∧
        h.disk.isFolder path = true) ∨
      ((ensureOne path).answer h = .ok 1 ∧
        Deed.run (.made path) h.disk = .ok ((ensureOne path).after h).disk) ∨
      ∃ e, (ensureOne path).answer h = .error e ∧ e.path = path ∧
        ((ensureOne path).after h).disk = h.disk ∧ e.HoldsOn h.disk := by
  cases hnode : h.disk.node path with
  | ok node =>
    cases node with
    | folder =>
      exact Or.inl ⟨by simp [ensureOne, hnode], by simp [ensureOne, hnode],
        Disk.isFolder_iff.2 hnode⟩
    | file b t m =>
      exact Or.inr (Or.inr ⟨.notDirectory path, by simp [ensureOne, hnode], rfl,
        by simp [ensureOne, hnode], _, hnode, by simp⟩)
    | link target =>
      exact Or.inr (Or.inr ⟨.notDirectory path, by simp [ensureOne, hnode], rfl,
        by simp [ensureOne, hnode], _, hnode, by simp⟩)
  | error fault =>
    -- a directory is made only where nothing was found; other faults are answered as they are
    by_cases hmissing : fault = .notFound
    · subst hmissing
      have hafter : (ensureOne path).after h = (create path).after h := by
        simp [ensureOne, hnode]
      rcases create_cases path h with ⟨hanswer, hrun⟩ | ⟨fault, hanswer, hmake, hdisk⟩
      · refine Or.inr (Or.inl ⟨by simp [ensureOne, hnode, hanswer, Except.map], ?_⟩)
        rw [hafter]
        exact hrun
      · exact Or.inr (Or.inr ⟨.create path fault,
          by simp [ensureOne, hnode, hanswer, Except.map], rfl, by rw [hafter, hdisk], hnode,
          hmake⟩)
    · refine Or.inr (Or.inr ⟨.inspect path fault, ?_, rfl, ?_, hnode, hmissing⟩)
      · simp only [ensureOne, Act.answer_bind, Act.answer_disk, Act.after_disk, hnode]
        cases fault <;> rfl
      · simp only [ensureOne, Act.after_bind, Act.answer_disk, Act.after_disk, hnode]
        cases fault <;> rfl

/-- Making sure of one directory either leaves one there, which was there before or was made,
or fails on the disk it found, for what the failure says. -/
theorem ensureOne_cases (path : Path) (h : Host) :
    (∃ n, (ensureOne path).answer h = .ok n ∧
        ((ensureOne path).after h).disk.isFolder path = true ∧
        (((ensureOne path).after h).disk = h.disk ∨
          Deed.run (.made path) h.disk = .ok ((ensureOne path).after h).disk)) ∨
      ∃ e, (ensureOne path).answer h = .error e ∧ e.path = path ∧
        ((ensureOne path).after h).disk = h.disk ∧ e.HoldsOn h.disk := by
  rcases ensureOne_outcome path h with ⟨hanswer, hafter, hfolder⟩ | ⟨hanswer, hrun⟩ | herror
  · rw [hafter]
    exact Or.inl ⟨0, hanswer, hfolder, Or.inl rfl⟩
  · obtain ⟨_, _, _, _, _, hfolder⟩ := Disk.makeFolder_ok hrun
    exact Or.inl ⟨1, hanswer, hfolder, Or.inr hrun⟩
  · exact Or.inr herror

/-- Nothing but the disk and the notes shows that directories were made sure of. -/
theorem ensureFrom_keeps {γ : Type} {view : Host → γ} (hview : Act.Aloof view) (part : Path)
    (made : Nat) (cs : List Component) : (ensureFrom part made cs).Keeps view := by
  have hcreate : ∀ path, (create path).Keeps view := by
    intro path
    refine .bind (hview.change _) fun answer => ?_
    cases answer with
    | ok => exact .bind (hview.note _ _) fun _ => .pure _
    | error fault => exact .pure _
  have hone : ∀ path, (ensureOne path).Keeps view := by
    intro path
    refine .bind .disk fun d => ?_
    split
    · exact .pure _
    · exact .pure _
    · exact .bind (hcreate path) fun _ => .pure _
    · exact .pure _
  induction cs generalizing part made with
  | nil => exact .pure _
  | cons c rest ih =>
    rw [ensureFrom]
    split
    · exact ih _ _
    · refine .bind (hone _) fun answer => ?_
      cases answer with
      | ok n => exact ih _ _
      | error e => exact .pure _

theorem ensureParent_keeps {γ : Type} {view : Host → γ} (hview : Act.Aloof view) (path : Path) :
    (ensureParent path).Keeps view := by
  unfold ensureParent
  split
  · exact .pure _
  · exact .bind (ensureFrom_keeps hview _ _ _) fun _ => .pure _

theorem does_ensureOne {allowed : Deed → Prop} {path : Path} (hmade : allowed (.made path)) :
    (ensureOne path).Does allowed := by
  intro h
  rcases ensureOne_cases path h with ⟨_, _, _, hdisk | hrun⟩ | ⟨_, _, _, hdisk, _⟩
  · exact ⟨[], by rw [hdisk]; exact .nothing h.disk, by simp⟩
  · exact ⟨[.made path], .one hrun, by simpa using hmade⟩
  · exact ⟨[], by rw [hdisk]; exact .nothing h.disk, by simp⟩

/-- Directories are made at parts of the path only. -/
theorem does_ensureFrom {allowed : Deed → Prop} (front : List Component) {cs : List Component}
    (made : Nat) (hcs : Path.Canonical (front ++ cs))
    (hmade : ∀ p : Path, p.components <+: front ++ cs → allowed (.made p)) :
    (ensureFrom (Path.ofComponents front) made cs).Does allowed := by
  induction cs generalizing front made with
  | nil => exact .pure _
  | cons c rest ih =>
    rw [List.append_cons] at hcs hmade
    have hnext : (Path.ofComponents (front ++ [c])).components = front ++ [c] :=
      Path.components_ofComponents (hcs.initial (List.prefix_append _ _))
    have hrest : ∀ made, (ensureFrom (Path.ofComponents (front ++ [c])) made rest).Does allowed :=
      fun made => ih _ made hcs hmade
    rw [ensureFrom, ← Path.ofComponents_concat]
    by_cases hgiven : isGiven c = true
    · simpa [hgiven] using hrest made
    · simp only [hgiven, Bool.false_eq_true, if_false]
      refine .bind (does_ensureOne (hmade _ ?_)) fun answer => ?_
      · rw [hnext]
        exact List.prefix_append _ _
      · cases answer with
        | ok n => exact hrest (made + n)
        | error e => exact .pure _

theorem does_ensure {allowed : Deed → Prop} {path : Path}
    (hmade : ∀ p : Path, p.components <+: path.components → allowed (.made p)) :
    (ensure path).Does allowed :=
  does_ensureFrom [] 0 (Path.canonical_components path) hmade

theorem does_ensureParent {allowed : Deed → Prop} {path : Path}
    (hmade : ∀ p : Path, p.components <+: path.components.dropLast → allowed (.made p)) :
    (ensureParent path).Does allowed := by
  unfold ensureParent
  split
  · exact .pure _
  · next parent hparent =>
    refine .bind (does_ensure ?_) fun _ => .pure _
    rw [Path.components_parent? hparent]
    exact hmade

/-- Where making sure of some directories fails, the way along them is blocked as the failure
says. -/
theorem ensureFrom_error (front : List Component) {cs : List Component} {made : Nat}
    {e : DirectoryError} {h : Host}
    (herror : (ensureFrom (Path.ofComponents front) made cs).answer h = .error e) :
    e.Blocks ((ensureFrom (Path.ofComponents front) made cs).after h).disk (front ++ cs) := by
  induction cs generalizing front made h with
  | nil => simp [ensureFrom] at herror
  | cons c rest ih =>
    rw [ensureFrom, ← Path.ofComponents_concat] at herror ⊢
    rw [List.append_cons front c rest]
    by_cases hgiven : isGiven c = true
    · simp only [hgiven, if_true] at herror ⊢
      exact ih _ herror
    · simp only [hgiven, Bool.false_eq_true, if_false, Act.answer_bind, Act.after_bind] at herror ⊢
      rcases ensureOne_cases (Path.ofComponents (front ++ [c])) h with
        ⟨n, hanswer, _, _⟩ | ⟨e', hanswer, hpath, hdisk, hholds⟩
      · rw [hanswer] at herror ⊢
        exact ih _ herror
      · -- this part failed, and nothing was tried behind it
        rw [hanswer] at herror ⊢
        simp only [Act.answer_pure, Except.error.injEq] at herror
        subst herror
        rw [Act.after_pure, hdisk]
        exact ⟨⟨front, c, List.prefix_append _ _, hpath⟩, hholds⟩

theorem ensure_error {path : Path} {e : DirectoryError} {h : Host}
    (herror : (ensure path).answer h = .error e) :
    e.Blocks ((ensure path).after h).disk path.components :=
  ensureFrom_error [] herror

theorem ensureParent_error {path : Path} {e : DirectoryError} {h : Host}
    (herror : (ensureParent path).answer h = .error e) :
    e.Blocks ((ensureParent path).after h).disk path.components.dropLast := by
  unfold ensureParent at herror ⊢
  split at herror
  · simp at herror
  · next parent hparent =>
    have hensure : (ensure parent).answer h = .error e := by
      cases hanswer : (ensure parent).answer h with
      | ok n => simp [hanswer, Except.map] at herror
      | error e' =>
        simp only [Act.answer_bind, Act.answer_pure, hanswer, Except.map, Except.error.injEq]
          at herror
        rw [herror]
    rw [← Path.components_parent? hparent]
    exact ensure_error hensure

end Directory

end GemCourier
