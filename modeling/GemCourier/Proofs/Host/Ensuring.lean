/-
GemCourier/Proofs/Host/Ensuring.lean

Making sure of a directory again, and along names below one that stands.

What making sure of some directories comes to shows on the disk that it leaves:
either all of them stand there, or the one that failed would fail again.  So a
second call finds nothing left to do and answers as the first one did.

Below a directory that stands, with no links in it, the outcome can be told
before anything is done: `obstacle` goes down the names and looks for a file in
the way.  It depends on the files at these places only, so neither directories
that others made nor files that others wrote elsewhere change it.

Main results: `ensureFrom_error_again`, `ensureFrom_names`, `ensureFrom_names_again`.
-/
import GemCourier.Proofs.Host.Directory
import GemCourier.Proofs.Disk.Entering

namespace GemCourier

namespace Act

variable {α β : Type}

/-! ### Steps that see nothing but the disk -/

/-- What the step answers, and the disk that it leaves, are told from the disk that it finds. -/
def FromDisk (step : Act α) : Prop :=
  ∀ h h' : Host, h.disk = h'.disk →
    step.answer h = step.answer h' ∧ (step.after h).disk = (step.after h').disk

namespace FromDisk

theorem pure (a : α) : (Pure.pure a : Act α).FromDisk :=
  fun _ _ hdisk => ⟨rfl, hdisk⟩

theorem bind {step : Act α} {next : α → Act β} (hstep : step.FromDisk)
    (hnext : ∀ a, (next a).FromDisk) : (step >>= next).FromDisk := by
  intro h h' hdisk
  obtain ⟨hanswer, hafter⟩ := hstep h h' hdisk
  rw [answer_bind, answer_bind, after_bind, after_bind, hanswer]
  exact hnext _ _ _ hafter

theorem disk : Act.disk.FromDisk :=
  fun _ _ hdisk => ⟨hdisk, hdisk⟩

theorem note (level : Level) (text : String) : (Act.note level text).FromDisk :=
  fun _ _ hdisk => ⟨rfl, hdisk⟩

theorem change (f : Disk → Except Fault Disk) : (Act.change f).FromDisk := by
  intro h h' hdisk
  cases hf : f h.disk with
  | ok d =>
    obtain ⟨hanswer, hafter⟩ := change_ok hf
    obtain ⟨hanswer', hafter'⟩ := change_ok (hdisk ▸ hf)
    exact ⟨hanswer.trans hanswer'.symm, by rw [hafter, hafter']⟩
  | error fault =>
    obtain ⟨hanswer, hafter⟩ := change_error hf
    obtain ⟨hanswer', hafter'⟩ := change_error (hdisk ▸ hf)
    exact ⟨hanswer.trans hanswer'.symm, by rw [hafter, hafter', hdisk]⟩

end FromDisk

end Act

namespace Directory

variable {h h' : Host} {d d' : Disk} {part p : Path} {cs ds : List Component} {made made' : Nat}
  {e : DirectoryError} {names : List String} {n : String} {loc : Location}

/-! ### Making sure again -/

theorem ensureOne_fromDisk (path : Path) : (ensureOne path).FromDisk := by
  refine .bind .disk fun d => ?_
  split
  · exact .pure _
  · exact .pure _
  · refine .bind (.bind (.change _) fun answer => ?_) fun _ => .pure _
    cases answer with
    | ok => exact .bind (.note _ _) fun _ => .pure _
    | error fault => exact .pure _
  · exact .pure _

theorem ensureFrom_fromDisk (part : Path) (made : Nat) (cs : List Component) :
    (ensureFrom part made cs).FromDisk := by
  induction cs generalizing part made with
  | nil => exact .pure _
  | cons c rest ih =>
    rw [ensureFrom]
    split
    · exact ih _ _
    · refine .bind (ensureOne_fromDisk _) fun answer => ?_
      cases answer with
      | ok n => exact ih _ _
      | error e => exact .pure _

theorem grows_ensureOne (path : Path) (h : Host) :
    h.disk.Grows ((ensureOne path).after h).disk :=
  (does_ensureOne trivial : (ensureOne path).Does fun _ => True).grows h

theorem grows_ensureFrom (part : Path) (made : Nat) (cs : List Component) (h : Host) :
    h.disk.Grows ((ensureFrom part made cs).after h).disk := by
  induction cs generalizing part made h with
  | nil => exact .refl _
  | cons c rest ih =>
    rw [ensureFrom]
    split
    · exact ih _ _ h
    · have hone := grows_ensureOne (part.child c.text) h
      rw [Act.after_bind]
      cases (ensureOne (part.child c.text)).answer h with
      | ok k =>
        dsimp only
        exact hone.trans (ih _ _ _)
      | error e =>
        rw [Act.after_pure]
        exact hone

/-- A directory that is there is left as it is. -/
theorem ensureOne_of_isFolder (hfolder : h.disk.isFolder p = true) :
    (ensureOne p).answer h = .ok 0 ∧ (ensureOne p).after h = h := by
  rw [Disk.isFolder_iff] at hfolder
  exact ⟨by simp [ensureOne, hfolder], by simp [ensureOne, hfolder]⟩

/-- All parts that making sure looks at are directories. -/
def Stands (d : Disk) (part : Path) : List Component → Prop
  | [] => True
  | c :: rest =>
    (isGiven c = false → d.isFolder (part.child c.text) = true) ∧
      Stands d (part.child c.text) rest

theorem Stands.grows (hgrows : d.Grows d') (hstands : Stands d part cs) : Stands d' part cs := by
  induction cs generalizing part with
  | nil => trivial
  | cons c rest ih => exact ⟨fun hc => hgrows.isFolder (hstands.1 hc), ih hstands.2⟩

theorem Stands.initial (hstands : Stands d part (cs ++ ds)) : Stands d part cs := by
  induction cs generalizing part with
  | nil => trivial
  | cons c rest ih => exact ⟨hstands.1, ih hstands.2⟩

/-- The last part stands, if it is looked at. -/
theorem Stands.last {c : Component} (hstands : Stands d (Path.ofComponents ds) (cs ++ [c]))
    (hc : isGiven c = false) : d.isFolder (Path.ofComponents (ds ++ cs ++ [c])) = true := by
  induction cs generalizing ds with
  | nil =>
    rw [List.append_nil, Path.ofComponents_concat]
    exact hstands.1 hc
  | cons first rest ih =>
    obtain ⟨-, hrest⟩ := hstands
    rw [← Path.ofComponents_concat] at hrest
    simpa using ih hrest

/-- A path whose parts stand enters a directory, if it is read from one. -/
theorem Stands.exists_enters (hstands : Stands d ⟨""⟩ p.components)
    (horigin : d.node? (d.originOf p.components) = some .folder) :
    ∃ loc, d.Enters p.components loc := by
  have hcanonical := Path.canonical_components p
  rcases List.eq_nil_or_concat p.components with hnil | ⟨front, c, hconcat⟩
  · exact ⟨_, Disk.enters_of_stays (by simp [hnil]) horigin⟩
  · rw [List.concat_eq_append] at hconcat
    cases hc : isGiven c with
    | false =>
      have hparts : Stands d (Path.ofComponents []) (front ++ [c]) := hconcat ▸ hstands
      have hfolder := hparts.last hc
      rw [List.nil_append, ← hconcat] at hfolder
      obtain ⟨loc, henters⟩ := Disk.enters_of_isFolder hfolder
      rw [Path.components_ofComponents hcanonical] at henters
      exact ⟨loc, henters⟩
    | true =>
      -- a root or a `.` stands at the front only, so nothing is left to move
      have hmove : c.step? = none := by cases c <;> first | rfl | cases hc
      cases front with
      | nil =>
        exact ⟨_, Disk.enters_of_stays (by simp [hconcat, hmove]) horigin⟩
      | cons first rest =>
        have hbehind := hcanonical.front c (by simp [hconcat])
        cases c <;> simp_all [isGiven]

/-- Nothing is left to do where all parts stand. -/
theorem ensureFrom_of_stands (hstands : Stands h.disk part cs) (made : Nat) :
    (ensureFrom part made cs).answer h = .ok made ∧ (ensureFrom part made cs).after h = h := by
  induction cs generalizing part with
  | nil => exact ⟨rfl, rfl⟩
  | cons c rest ih =>
    rw [ensureFrom]
    by_cases hgiven : isGiven c = true
    · simpa [hgiven] using ih hstands.2
    · obtain ⟨hanswer, hafter⟩ := ensureOne_of_isFolder (hstands.1 (by simpa using hgiven))
      simp only [hgiven, Bool.false_eq_true, if_false, Act.answer_bind, Act.after_bind, hanswer,
        hafter]
      exact ih hstands.2

/-- What was made sure of stands. -/
theorem stands_of_ensureFrom {k : Nat} (hok : (ensureFrom part made cs).answer h = .ok k) :
    Stands ((ensureFrom part made cs).after h).disk part cs := by
  induction cs generalizing part made h with
  | nil => trivial
  | cons c rest ih =>
    rw [ensureFrom] at hok ⊢
    by_cases hgiven : isGiven c = true
    · simp only [hgiven, if_true] at hok ⊢
      exact ⟨by simp [hgiven], ih hok⟩
    · simp only [hgiven, Bool.false_eq_true, if_false, Act.answer_bind, Act.after_bind] at hok ⊢
      rcases ensureOne_cases (part.child c.text) h with
        ⟨k', hanswer, hfolder, _⟩ | ⟨_, hanswer, _⟩
      · rw [hanswer] at hok ⊢
        dsimp only at hok ⊢
        exact ⟨fun _ => (grows_ensureFrom _ _ _ _).isFolder hfolder, ih hok⟩
      · rw [hanswer] at hok
        cases hok

/-- What could not be made sure of cannot be on the disk that was left, for the same reason, and
that disk stays as it is. -/
theorem ensureFrom_error_again (herror : (ensureFrom part made cs).answer h = .error e)
    (hdisk : h'.disk = ((ensureFrom part made cs).after h).disk) :
    (ensureFrom part made' cs).answer h' = .error e ∧
      ((ensureFrom part made' cs).after h').disk = h'.disk := by
  induction cs generalizing part made made' h with
  | nil => cases herror
  | cons c rest ih =>
    rw [ensureFrom] at herror hdisk ⊢
    by_cases hgiven : isGiven c = true
    · simp only [hgiven, if_true] at herror hdisk ⊢
      exact ih herror hdisk
    · simp only [hgiven, Bool.false_eq_true, if_false, Act.answer_bind, Act.after_bind]
        at herror hdisk ⊢
      rcases ensureOne_cases (part.child c.text) h with
        ⟨k, hanswer, hfolder, _⟩ | ⟨e', hanswer, _, hleft, _⟩
      · -- this part is a directory by now, so it is passed and the failure lies behind it
        rw [hanswer] at herror hdisk
        have hfolder' : h'.disk.isFolder (part.child c.text) = true := by
          rw [hdisk]
          exact (grows_ensureFrom _ _ _ _).isFolder hfolder
        obtain ⟨hanswer', hafter'⟩ := ensureOne_of_isFolder hfolder'
        rw [hanswer', hafter']
        dsimp only at herror hdisk ⊢
        exact ih herror hdisk
      · rw [hanswer] at herror hdisk
        simp only [Act.answer_pure, Act.after_pure] at herror hdisk
        have hsame : h.disk = h'.disk := by rw [hdisk, hleft]
        obtain ⟨hanswer', hafter'⟩ := ensureOne_fromDisk (part.child c.text) h h' hsame
        rw [← hanswer', hanswer]
        simp only [Act.answer_pure, Act.after_pure]
        exact ⟨herror, by rw [← hafter', hleft, hsame]⟩

/-- How many directories were made before changes nothing but the number. -/
theorem ensureFrom_made (part : Path) (made made' : Nat) (cs : List Component) (h : Host) :
    ((ensureFrom part made cs).answer h).map (fun _ => ()) =
        ((ensureFrom part made' cs).answer h).map (fun _ => ()) ∧
      (ensureFrom part made cs).after h = (ensureFrom part made' cs).after h := by
  induction cs generalizing part made made' h with
  | nil => exact ⟨rfl, rfl⟩
  | cons c rest ih =>
    rw [ensureFrom, ensureFrom]
    split
    · exact ih _ _ _ _
    · simp only [Act.answer_bind, Act.after_bind]
      cases (ensureOne (part.child c.text)).answer h with
      | ok k => exact ih _ _ _ _
      | error e => exact ⟨rfl, rfl⟩

/-- Making sure of some parts and then of others. -/
theorem ensureFrom_append (front : List Component) (made : Nat) (cs ds : List Component) :
    ensureFrom (Path.ofComponents front) made (cs ++ ds) =
      ensureFrom (Path.ofComponents front) made cs >>= fun answer => match answer with
        | .ok k => ensureFrom (Path.ofComponents (front ++ cs)) k ds
        | .error e => pure (.error e) := by
  induction cs generalizing front made with
  | nil =>
    rw [List.nil_append, List.append_nil]
    rfl
  | cons c rest ih =>
    have hrest := ih (front ++ [c])
    rw [List.append_assoc, List.singleton_append] at hrest
    rw [List.cons_append, ensureFrom, ensureFrom, ← Path.ofComponents_concat]
    split
    · exact hrest _
    · rw [bind_assoc]
      congr 1
      funext answer
      cases answer with
      | ok k => exact hrest _
      | error e => rfl

/-! ### Names below a directory -/

/-- What is in the way of making sure of the directories along some names below the directory
`loc`, if anything is: a name that nothing is looked up by, or a file. -/
def obstacle (d : Disk) (part : Path) (loc : Location) : List String → Except DirectoryError Unit
  | [] => .ok ()
  | n :: rest =>
    match (part.child n).refusal? n with
    | some fault => .error (.inspect (part.child n) fault)
    | none =>
      if (d.node? (loc ++ [n])).any Node.isFile then .error (.notDirectory (part.child n))
      else obstacle d (part.child n) (loc ++ [n]) rest

/-- Nothing but the files along the names is in the way. -/
theorem obstacle_congr (hfiles : ∀ more, more ≠ [] → more <+: names →
      (d'.node? (loc ++ more)).any Node.isFile = (d.node? (loc ++ more)).any Node.isFile) :
    obstacle d' part loc names = obstacle d part loc names := by
  induction names generalizing part loc with
  | nil => rfl
  | cons n rest ih =>
    have hrest : obstacle d' (part.child n) (loc ++ [n]) rest =
        obstacle d (part.child n) (loc ++ [n]) rest := by
      refine ih fun more _ hmore => ?_
      rw [List.append_assoc]
      exact hfiles _ (by simp) (by simpa using hmore)
    rw [obstacle, obstacle, hfiles [n] (by simp) (by simp), hrest]

section Entry

variable (henters : h.disk.Enters cs loc) (hp : p.Neat n) (hc : p.components = cs ++ [.name n])
  (hfree : h.disk.link? (loc ++ [n]) = none)
include henters hp hc hfree

theorem ensureOne_refused {fault : Fault} (hrefused : p.refusal? n = some fault) :
    (ensureOne p).answer h = .error (.inspect p fault) ∧ (ensureOne p).after h = h := by
  have hnode := henters.node_entry hp hc hfree
  rw [hrefused] at hnode
  have hfault : fault ≠ .notFound := by
    rintro rfl
    exact Path.refusal?_ne_notFound hrefused
  simp only [ensureOne, Act.answer_bind, Act.after_bind, Act.answer_disk, Act.after_disk, hnode]
  cases fault <;> first | exact absurd rfl hfault | exact ⟨rfl, rfl⟩

theorem ensureOne_file (hopen : p.refusal? n = none)
    (hfile : (h.disk.node? (loc ++ [n])).any Node.isFile = true) :
    (ensureOne p).answer h = .error (.notDirectory p) ∧ (ensureOne p).after h = h := by
  have hnode := henters.node_entry hp hc hfree
  rw [hopen] at hnode
  cases hat : h.disk.node? (loc ++ [n]) with
  | none => simp [hat] at hfile
  | some node =>
    rw [hat] at hnode hfile
    cases node with
    | folder => simp [Node.isFile] at hfile
    | file b t m => exact ⟨by simp [ensureOne, hnode], by simp [ensureOne, hnode]⟩
    | link target => simp [Node.isFile] at hfile

/-- An entry that is no file is a directory afterwards, and nothing else has changed. -/
theorem ensureOne_entry (hopen : p.refusal? n = none)
    (hfile : (h.disk.node? (loc ++ [n])).any Node.isFile = false) :
    (∃ k, (ensureOne p).answer h = .ok k) ∧
      ((ensureOne p).after h).disk.node? (loc ++ [n]) = some .folder ∧
      ∀ other, other ≠ loc ++ [n] →
        ((ensureOne p).after h).disk.node? other = h.disk.node? other := by
  have hnode := henters.node_entry hp hc hfree
  rw [hopen] at hnode
  cases hat : h.disk.node? (loc ++ [n]) with
  | none =>
    rw [hat] at hnode
    obtain ⟨hanswer, hafter⟩ := Act.change_ok (f := (·.makeFolder p))
      (henters.makeFolder_entry hp hc hfree hopen hat)
    have hdisk : ((ensureOne p).after h).disk = h.disk.put (loc ++ [n]) .folder := by
      simp [ensureOne, hnode, create, hanswer, hafter]
    refine ⟨⟨1, ?_⟩, ?_, fun other hother => ?_⟩
    · simp [ensureOne, hnode, create, hanswer, Except.map]
    · rw [hdisk, Disk.node?_put _ (by simp), if_pos rfl]
    · rw [hdisk, Disk.node?_put _ (by simp), if_neg hother]
  | some node =>
    rw [hat] at hnode hfile
    cases node with
    | folder =>
      obtain ⟨hanswer, hafter⟩ := ensureOne_of_isFolder (Disk.isFolder_iff.2 hnode)
      exact ⟨⟨0, hanswer⟩, by rw [hafter, hat], fun other _ => by rw [hafter]⟩
    | file b t m => simp [Node.isFile] at hfile
    | link target =>
      rw [Disk.link?_eq_some_iff.2 hat] at hfree
      cases hfree

/-- An entry that is no file is entered afterwards, and links come in below it as little as before. -/
theorem ensureOne_enters (hbelow : ∀ more, h.disk.link? (loc ++ more) = none)
    (hopen : p.refusal? n = none)
    (hfile : (h.disk.node? (loc ++ [n])).any Node.isFile = false) :
    ((ensureOne p).after h).disk.Enters (cs ++ [.name n]) (loc ++ [n]) ∧
      ∀ more, ((ensureOne p).after h).disk.link? (loc ++ [n] ++ more) = none := by
  obtain ⟨-, hfolder, -⟩ := ensureOne_entry henters hp hc hfree hopen hfile
  have hgrows := grows_ensureOne p h
  refine ⟨(henters.grows hgrows).entry (Path.short_of_refusal? hopen) hfolder, fun more => ?_⟩
  rw [hgrows.links, List.append_assoc]
  exact hbelow _

end Entry

/-- Making sure of directories along names below a directory that is entered comes to what is in
the way.  Nothing changes but at these names, and if nothing is in the way the last directory is
entered too. -/
theorem ensureFrom_names (made : Nat) (hpart : part.components = cs)
    (henters : h.disk.Enters cs loc) (hfree : ∀ more, h.disk.link? (loc ++ more) = none)
    (hnames : ∀ m ∈ names, IsEntryName m) :
    ((ensureFrom part made (names.map .name)).answer h).map (fun _ => ()) =
        obstacle h.disk part loc names ∧
      (obstacle h.disk part loc names = .ok () →
        ((ensureFrom part made (names.map .name)).after h).disk.Enters
          (cs ++ names.map .name) (loc ++ names)) ∧
      ∀ other, (∀ more, more ≠ [] → more <+: names → other ≠ loc ++ more) →
        ((ensureFrom part made (names.map .name)).after h).disk.node? other =
          h.disk.node? other := by
  induction names generalizing part cs loc made h with
  | nil => exact ⟨rfl, fun _ => by simpa [ensureFrom] using henters, fun _ _ => rfl⟩
  | cons n rest ih =>
    have hn := hnames n (by simp)
    have hnext : (part.child n).components = cs ++ [.name n] := by
      rw [Path.components_child hn, hpart]
    have hneat : (part.child n).Neat n := Path.neat_child hn
    rw [List.map_cons, ensureFrom, obstacle]
    simp only [isGiven, Bool.false_eq_true, if_false, Component.text, Act.answer_bind,
      Act.after_bind]
    cases hrefused : (part.child n).refusal? n with
    | some fault =>
      obtain ⟨hanswer, hafter⟩ := ensureOne_refused henters hneat hnext (hfree [n]) hrefused
      rw [hanswer, hafter]
      dsimp only
      exact ⟨rfl, by rintro ⟨⟩, fun _ _ => rfl⟩
    | none =>
      cases hfile : (h.disk.node? (loc ++ [n])).any Node.isFile with
      | true =>
        obtain ⟨hanswer, hafter⟩ :=
          ensureOne_file henters hneat hnext (hfree [n]) hrefused hfile
        rw [hanswer, hafter]
        dsimp only
        rw [if_pos rfl]
        exact ⟨rfl, by rintro ⟨⟩, fun _ _ => rfl⟩
      | false =>
        obtain ⟨⟨k, hanswer⟩, -, hother⟩ :=
          ensureOne_entry henters hneat hnext (hfree [n]) hrefused hfile
        obtain ⟨henters', hfree'⟩ :=
          ensureOne_enters henters hneat hnext (hfree [n]) hfree hrefused hfile
        rw [hanswer]
        generalize (ensureOne (part.child n)).after h = mid at hother henters' hfree'
        obtain ⟨ihanswer, ihenters, ihother⟩ := ih (made + k) hnext henters' hfree'
          fun m hm => hnames m (by simp [hm])
        -- the directory that may have been made here is none of those further down
        have hsame : obstacle mid.disk (part.child n) (loc ++ [n]) rest =
            obstacle h.disk (part.child n) (loc ++ [n]) rest := by
          refine obstacle_congr fun more hmore _ => ?_
          rw [hother _ (by simpa using hmore)]
        rw [hsame] at ihanswer ihenters
        refine ⟨ihanswer, fun hclear => ?_, fun other houtside => ?_⟩
        · have := ihenters hclear
          rwa [List.append_assoc, List.append_assoc] at this
        · rw [← hother other (houtside [n] (by simp) (by simp))]
          refine ihother other fun more _ hmore => ?_
          rw [List.append_assoc]
          exact houtside _ (by simp) (by simpa using hmore)

/-- On a disk that has all that making sure along names left, it answers the same once more and
changes nothing. -/
theorem ensureFrom_names_again (made made' : Nat) (hpart : part.components = cs)
    (henters : h.disk.Enters cs loc) (hfree : ∀ more, h.disk.link? (loc ++ more) = none)
    (hnames : ∀ m ∈ names, IsEntryName m)
    (hgrows : ((ensureFrom part made (names.map .name)).after h).disk.Grows h'.disk) :
    ((ensureFrom part made' (names.map .name)).answer h').map (fun _ => ()) =
        ((ensureFrom part made (names.map .name)).answer h).map (fun _ => ()) ∧
      (ensureFrom part made' (names.map .name)).after h' = h' := by
  induction names generalizing part cs loc made made' h with
  | nil => exact ⟨rfl, rfl⟩
  | cons n rest ih =>
    have hn := hnames n (by simp)
    have hnext : (part.child n).components = cs ++ [.name n] := by
      rw [Path.components_child hn, hpart]
    have hneat : (part.child n).Neat n := Path.neat_child hn
    rw [List.map_cons, ensureFrom] at hgrows ⊢
    rw [ensureFrom]
    simp only [isGiven, Bool.false_eq_true, if_false, Component.text, Act.answer_bind,
      Act.after_bind] at hgrows ⊢
    cases hrefused : (part.child n).refusal? n with
    | some fault =>
      obtain ⟨hanswer, hafter⟩ := ensureOne_refused henters hneat hnext (hfree [n]) hrefused
      rw [hanswer] at hgrows ⊢
      rw [hafter] at hgrows
      obtain ⟨hanswer', hafter'⟩ := ensureOne_refused (henters.grows hgrows) hneat hnext
        (by rw [hgrows.links]; exact hfree [n]) hrefused
      rw [hanswer', hafter']
      exact ⟨rfl, rfl⟩
    | none =>
      cases hfile : (h.disk.node? (loc ++ [n])).any Node.isFile with
      | true =>
        obtain ⟨hanswer, hafter⟩ :=
          ensureOne_file henters hneat hnext (hfree [n]) hrefused hfile
        rw [hanswer] at hgrows ⊢
        rw [hafter] at hgrows
        obtain ⟨hanswer', hafter'⟩ := ensureOne_file (henters.grows hgrows) hneat hnext
          (by rw [hgrows.links]; exact hfree [n]) hrefused (hgrows.any_isFile hfile)
        rw [hanswer', hafter']
        exact ⟨rfl, rfl⟩
      | false =>
        obtain ⟨⟨k, hanswer⟩, hfolder, -⟩ :=
          ensureOne_entry henters hneat hnext (hfree [n]) hrefused hfile
        obtain ⟨henters', hfree'⟩ :=
          ensureOne_enters henters hneat hnext (hfree [n]) hfree hrefused hfile
        have hone := grows_ensureOne (part.child n) h
        rw [hanswer] at hgrows ⊢
        generalize (ensureOne (part.child n)).after h = mid at hfolder hone hgrows henters' hfree'
        -- the directory is there by now, so it is passed
        have hlater : mid.disk.Grows h'.disk := (grows_ensureFrom _ _ _ _).trans hgrows
        have hnode' := (henters.grows (hone.trans hlater)).node_entry hneat hnext
          (by rw [(hone.trans hlater).links]; exact hfree [n])
        rw [hrefused, hlater.folder hfolder] at hnode'
        obtain ⟨hanswer', hafter'⟩ := ensureOne_of_isFolder (Disk.isFolder_iff.2 hnode')
        rw [hanswer', hafter']
        exact ih _ _ hnext henters' hfree' (fun m hm => hnames m (by simp [hm])) hgrows

end Directory

end GemCourier
