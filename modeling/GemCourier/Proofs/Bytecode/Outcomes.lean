/-
GemCourier/Proofs/Bytecode/Outcomes.lean

What became of each file of a workspace.

An installation goes through the files that were found, one after the other, and
each is installed on the host that those before it have left.  `outcomesOf`
writes down what became of them, and the report is read off that: what was
installed is listed with its target, under scripts or under copies, and what
was not with the reason.  No file is passed over, since all that is found lies
below the workspace, so the three lists together name each file once.

Main results: `outcomesOf_append`, `install_report`, `map_source_outcomes`, `outcomes_at`.
-/
import GemCourier.Proofs.Bytecode.Pairs
import GemCourier.Proofs.Sync.Coverage

namespace GemCourier.Bytecode

open Disk

/-- What became of a file of a workspace. -/
structure Outcome where
  source : Path
  target : Path
  result : Except InstallError Unit
deriving DecidableEq

namespace Outcome

/-- The target of a file that was installed, as a script or as a copy. -/
def installed? (script : Bool) (o : Outcome) : Option Path :=
  match o.result with
  | .ok () => if isScript o.source = script then some o.target else none
  | .error _ => none

/-- A file that was not installed, with the reason. -/
def failure? (o : Outcome) : Option (Path × InstallError) :=
  match o.result with
  | .ok () => none
  | .error e => some (o.source, e)

end Outcome

/-- The report on what became of some files. -/
def InstallReport.of (outcomes : List Outcome) : InstallReport where
  compiled := outcomes.filterMap (Outcome.installed? true)
  copied := outcomes.filterMap (Outcome.installed? false)
  failures := outcomes.filterMap Outcome.failure?

/-- What becomes of some files that are installed from a host on.  Each is installed on the host
that those before it leave. -/
def outcomesOf (compiler : Compiler) (workspace destination : Path) :
    List Path → Host → List Outcome
  | [], _ => []
  | source :: rest, h =>
    let others := outcomesOf compiler workspace destination rest
      ((installAll compiler workspace destination [source]).after h)
    match target? workspace destination source with
    | none => others
    | some target => ⟨source, target, (installAt compiler source target).answer h⟩ :: others

/-- The files that are found in a workspace. -/
def found (d : Disk) (workspace : Path) : List Path :=
  (d.leavesBelow workspace).filterMap Finding.leaf?

/-- The host on which the first file of a workspace is installed. -/
def reported (workspace : Path) (h : Host) : Host :=
  (Finding.report (h.disk.leavesBelow workspace)).after h

/-- What becomes of the files of a workspace. -/
def outcomes (compiler : Compiler) (workspace destination : Path) (h : Host) : List Outcome :=
  outcomesOf compiler workspace destination (found h.disk workspace) (reported workspace h)

variable {compiler : Compiler} {workspace destination source target : Path}
  {sources others : List Path} {d : Disk} {h : Host}

@[simp] theorem disk_reported (workspace : Path) (h : Host) :
    (reported workspace h).disk = h.disk :=
  disk_after_report _ h

theorem mem_found : source ∈ found d workspace ↔ .leaf source ∈ d.leavesBelow workspace :=
  Finding.mem_filterMap_leaf?

/-! ### One file after the other -/

/-- A file that has no target is passed over. -/
theorem installAll_skip (htarget : target? workspace destination source = none) :
    installAll compiler workspace destination (source :: sources) =
      installAll compiler workspace destination sources := by
  rw [installAll, Option.map_eq_none_iff.1 htarget]

/-- The others are installed on the host that the first file leaves, which has the disk that
installing it leaves. -/
theorem after_installAll_cons (compiler : Compiler) (workspace destination source : Path)
    (rest : List Path) (h : Host) :
    (installAll compiler workspace destination (source :: rest)).after h =
      (installAll compiler workspace destination rest).after
        ((installAll compiler workspace destination [source]).after h) := by
  cases htarget : source.relativeTo? workspace with
  | none => simp [installAll, htarget]
  | some relative =>
    simp only [installAll, htarget, Act.after_bind]
    generalize targetOf destination source relative = target
    cases (installAt compiler source target).answer h with
    | error e => rfl
    | ok _ =>
      generalize (installAt compiler source target).after h = k
      cases isScript source <;> rfl

theorem disk_after_installAll_one (compiler : Compiler) (h : Host)
    (htarget : target? workspace destination source = some target) :
    ((installAll compiler workspace destination [source]).after h).disk =
      ((installAt compiler source target).after h).disk := by
  obtain ⟨relative, hrelative, rfl⟩ := target?_eq_some.1 htarget
  obtain ⟨noted, hnoted, hafter, -⟩ := installAll_cons compiler destination [] hrelative h
  rw [hafter, installAll, Act.after_pure, hnoted]

/-- What becomes of some files and then of others. -/
theorem outcomesOf_append (sources others : List Path) (h : Host) :
    outcomesOf compiler workspace destination (sources ++ others) h =
      outcomesOf compiler workspace destination sources h ++
        outcomesOf compiler workspace destination others
          ((installAll compiler workspace destination sources).after h) := by
  induction sources generalizing h with
  | nil => rfl
  | cons source rest ih =>
    have hafter := after_installAll_cons compiler workspace destination source rest h
    rw [List.cons_append, outcomesOf, outcomesOf, hafter, ih]
    cases target? workspace destination source <;> rfl

/-- What becomes of files that all have targets is written down for each of them. -/
theorem map_source_outcomesOf
    (htargets : ∀ s ∈ sources, ∃ target, target? workspace destination s = some target) :
    (outcomesOf compiler workspace destination sources h).map Outcome.source = sources := by
  induction sources generalizing h with
  | nil => rfl
  | cons source rest ih =>
    obtain ⟨target, htarget⟩ := htargets source (by simp)
    rw [outcomesOf, htarget]
    exact congrArg (source :: ·) (ih fun s hs => htargets s (by simp [hs]))

/-- The report says what became of the files. -/
theorem installAll_report (sources : List Path) (h : Host) :
    (installAll compiler workspace destination sources).answer h =
      .of (outcomesOf compiler workspace destination sources h) := by
  induction sources generalizing h with
  | nil => rfl
  | cons source rest ih =>
    cases htarget : target? workspace destination source with
    | none =>
      have hskip : installAll compiler workspace destination [source] = pure .nothing :=
        installAll_skip htarget
      rw [installAll_skip htarget, outcomesOf, htarget, hskip, Act.after_pure]
      exact ih h
    | some target =>
      obtain ⟨relative, hrelative, rfl⟩ := target?_eq_some.1 htarget
      rw [outcomesOf, htarget]
      simp only [installAll, hrelative, Act.answer_bind, Act.after_bind]
      generalize installAt compiler source (targetOf destination source relative) = step
      cases hanswer : step.answer h with
      | error e =>
        simp only [Act.answer_bind, Act.after_bind, ih]
        simp [InstallReport.of, List.filterMap_cons, Outcome.installed?, Outcome.failure?]
      | ok _ =>
        simp only [Act.answer_bind, ih]
        cases hscript : isScript source <;>
          simp [InstallReport.of, List.filterMap_cons, Outcome.installed?, Outcome.failure?,
            hscript]

/-! ### All files of a workspace -/

/-- Every file that is found has a target. -/
theorem exists_target_of_leaf (destination : Path) (hd : d.WellFormed)
    (hsource : .leaf source ∈ d.leavesBelow workspace) :
    ∃ target, target? workspace destination source = some target := by
  obtain ⟨names, -, -, hc⟩ := lies_of_leaf hd hsource
  obtain ⟨relative, hrelative, -⟩ :=
    Path.exists_relativeTo? (components_ne_nil_of_leaf hsource) hc
  exact ⟨_, target?_eq_some.2 ⟨relative, hrelative, rfl⟩⟩

theorem exists_targets (destination : Path) (hd : d.WellFormed)
    (hsources : sources ⊆ found d workspace) :
    ∀ s ∈ sources, ∃ target, target? workspace destination s = some target :=
  fun _ hs => exists_target_of_leaf destination hd (mem_found.1 (hsources hs))

/-- The files of a workspace are found in the order of components. -/
theorem found_ascends (hd : d.WellFormed) (workspace : Path) :
    (found d workspace).Pairwise Path.Precedes :=
  (walkWithin_ascends hd _ workspace).imp Before.precedes

/-- The report of an installation says what became of the files. -/
theorem install_report (compiler : Compiler) (workspace destination : Path) (h : Host) :
    (install compiler workspace destination).answer h =
      .of (outcomes compiler workspace destination h) :=
  installAll_report _ _

/-- It is written down of each file that is found, once and in the order of the walk, what became
of it. -/
theorem map_source_outcomes (compiler : Compiler) (workspace destination : Path)
    (hd : h.disk.WellFormed) :
    (outcomes compiler workspace destination h).map Outcome.source = found h.disk workspace :=
  map_source_outcomesOf (exists_targets destination hd (List.Subset.refl _))

/-- What becomes of a file is what comes of installing it at its target, once the files before it
are installed. -/
theorem outcomes_at (compiler : Compiler) (destination : Path) (hd : h.disk.WellFormed)
    {front behind : List Path} (hfound : found h.disk workspace = front ++ source :: behind) :
    ∃ target, target? workspace destination source = some target ∧
      (outcomes compiler workspace destination h)[front.length]? = some ⟨source, target,
        (installAt compiler source target).answer
          ((installAll compiler workspace destination front).after (reported workspace h))⟩ := by
  have htargets := exists_targets destination hd (List.Subset.refl (found h.disk workspace))
  rw [hfound] at htargets
  obtain ⟨target, htarget⟩ := htargets source (by simp)
  refine ⟨target, htarget, ?_⟩
  have hsources : (outcomesOf compiler workspace destination front (reported workspace h)).map
      Outcome.source = front := map_source_outcomesOf fun s hs => htargets s (by simp [hs])
  have hlength := congrArg List.length hsources
  rw [List.length_map] at hlength
  rw [outcomes, hfound, outcomesOf_append, List.getElem?_append_right (by rw [hlength]), hlength,
    Nat.sub_self, outcomesOf, htarget]
  rfl

end GemCourier.Bytecode
