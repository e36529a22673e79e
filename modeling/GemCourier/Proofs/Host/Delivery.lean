/-
GemCourier/Proofs/Host/Delivery.lean

Writing a file after making sure of the directory it lies in.

Downloads and copies both put their files in place in these two steps.  Below a
directory that stands, with no links in it, what comes of them is told from the
disk that they find (`outcome`): it depends on the files that stand in the place
of a directory, and on a directory that stands in the place of the file, and on
nothing else.  A delivery that is made again answers the same, and what the
first one did not get done the second one leaves alone.

Main results: `deliver_ensured`, `answer_deliver`, `outcome_deliver`, `deliver_again`.
-/
import GemCourier.Proofs.Host.Ensuring

namespace GemCourier.Directory

variable {h h' : Host} {d d' : Disk} {p root : Path} {names : List String} {n : String}
  {base : Location} {bytes bytes' : ByteArray} {e : DirectoryError}

/-- Writes a file after making sure of the directory it lies in. -/
def deliver (p : Path) (bytes : ByteArray) : Act (Except (DirectoryError ⊕ Fault) Unit) := do
  match ← ensureParent p with
  | .error e => return .error (.inl e)
  | .ok () =>
    match ← Act.change (·.writeFile p bytes) with
    | .error fault => return .error (.inr fault)
    | .ok () => return .ok ()

theorem deliver_blocked (bytes : ByteArray) (hparent : (ensureParent p).answer h = .error e) :
    (deliver p bytes).answer h = .error (.inl e) ∧
      (deliver p bytes).after h = (ensureParent p).after h := by
  simp [deliver, hparent]

theorem deliver_refused {fault : Fault} (hparent : (ensureParent p).answer h = .ok ())
    (hwrite : ((ensureParent p).after h).disk.writeFile p bytes = .error fault) :
    (deliver p bytes).answer h = .error (.inr fault) ∧
      (deliver p bytes).after h = (ensureParent p).after h := by
  obtain ⟨hchange, hafter⟩ := Act.change_error (f := (·.writeFile p bytes)) hwrite
  simp [deliver, hparent, hchange, hafter]

theorem deliver_written (hparent : (ensureParent p).answer h = .ok ())
    (hwrite : ((ensureParent p).after h).disk.writeFile p bytes = .ok d) :
    (deliver p bytes).answer h = .ok () ∧ ((deliver p bytes).after h).disk = d := by
  obtain ⟨hchange, hafter⟩ := Act.change_ok (f := (·.writeFile p bytes)) hwrite
  simp [deliver, hparent, hchange, hafter]

/-- A delivery makes directories on the way to its file, and writes the file if it succeeds. -/
theorem exists_deeds_deliver (p : Path) (bytes : ByteArray) (h : Host) :
    ∃ deeds, h.disk.Does deeds ((deliver p bytes).after h).disk ∧
      ∀ deed ∈ deeds, (∃ q, deed = .made q ∧ q.components <+: p.components.dropLast) ∨
        deed = .wrote p bytes ∧ (deliver p bytes).answer h = .ok () := by
  have hmakes : (ensureParent p).Does fun deed =>
      ∃ q, deed = .made q ∧ q.components <+: p.components.dropLast :=
    does_ensureParent fun q hq => ⟨q, rfl, hq⟩
  obtain ⟨deeds, hdeeds, hmade⟩ := hmakes h
  cases hparent : (ensureParent p).answer h with
  | error e =>
    rw [(deliver_blocked bytes hparent).2]
    exact ⟨deeds, hdeeds, fun deed hdeed => Or.inl (hmade deed hdeed)⟩
  | ok _ =>
    cases hwrite : ((ensureParent p).after h).disk.writeFile p bytes with
    | error fault =>
      rw [(deliver_refused hparent hwrite).2]
      exact ⟨deeds, hdeeds, fun deed hdeed => Or.inl (hmade deed hdeed)⟩
    | ok d =>
      obtain ⟨hanswer, hafter⟩ := deliver_written hparent hwrite
      have hrun : Deed.run (.wrote p bytes) ((ensureParent p).after h).disk = .ok d := hwrite
      rw [hafter]
      refine ⟨deeds ++ [.wrote p bytes], hdeeds.append (.one hrun), fun deed hdeed => ?_⟩
      rcases List.mem_append.1 hdeed with hdeed | hdeed
      · exact Or.inl (hmade deed hdeed)
      · exact Or.inr ⟨List.mem_singleton.1 hdeed, hanswer⟩

theorem grows_deliver (p : Path) (bytes : ByteArray) (h : Host) :
    h.disk.Grows ((deliver p bytes).after h).disk := by
  obtain ⟨deeds, hdeeds, -⟩ := exists_deeds_deliver p bytes h
  exact hdeeds.grows

/-- What was delivered can be read. -/
theorem readFile_of_deliver (hok : (deliver p bytes).answer h = .ok ()) :
    ((deliver p bytes).after h).disk.readFile p = .ok bytes := by
  cases hparent : (ensureParent p).answer h with
  | error e =>
    rw [(deliver_blocked bytes hparent).1] at hok
    cases hok
  | ok _ =>
    cases hwrite : ((ensureParent p).after h).disk.writeFile p bytes with
    | error fault =>
      rw [(deliver_refused hparent hwrite).1] at hok
      cases hok
    | ok d =>
      obtain ⟨_, _, _, _, _, _, hread⟩ := Disk.writeFile_ok hwrite
      rw [(deliver_written hparent hwrite).2]
      exact hread

/-! ### The directory that a file lies in -/

/-- The path goes on from the root by some names and a last one, with which it is written. -/
structure Below (root : Path) (names : List String) (n : String) (p : Path) : Prop where
  components : p.components = root.components ++ names.map .name ++ [.name n]
  neat : p.Neat n

theorem Below.components_eq (hp : Below root names n p) :
    p.components = root.components ++ (names ++ [n]).map .name := by
  rw [hp.components]
  simp

theorem Below.isEntryName (hp : Below root names n p) : ∀ m ∈ names, IsEntryName m :=
  fun m hm => (Path.canonical_components p).names m (by rw [hp.components]; simp [hm])

/-- Makes sure of the directories along some names below a root. -/
def ensureBelow (root : Path) (names : List String) : Act (Except DirectoryError Nat) :=
  ensureFrom (Path.ofComponents root.components) 0 (names.map .name)

theorem ensureParent_eq (hp : Below root names n p) :
    ensureParent p = do
      let answer ← (match ← ensure root with
        | .ok k => ensureFrom (Path.ofComponents root.components) k (names.map .name)
        | .error e => pure (.error e))
      return answer.map fun _ => () := by
  obtain ⟨q, hq, hcomponents⟩ := Path.exists_parent?_of_name hp.components
  have hsplit := ensureFrom_append [] 0 root.components (names.map .name)
  rw [List.nil_append] at hsplit
  rw [ensureParent, hq]
  dsimp only
  rw [ensure, hcomponents]
  exact congrArg (fun step => step >>= fun answer => pure (answer.map fun _ => ())) hsplit

/-- Where a root cannot be made sure of, nor can the directory of a file below it. -/
theorem ensureParent_of_error (hp : Below root names n p)
    (hroot : (ensure root).answer h = .error e) :
    (ensureParent p).answer h = .error e ∧ (ensureParent p).after h = (ensure root).after h := by
  rw [ensureParent_eq hp]
  simp only [Act.answer_bind, Act.after_bind, hroot]
  exact ⟨rfl, rfl⟩

/-- Behind a root that was made sure of, it goes on along the names. -/
theorem ensureParent_of_ok {k : Nat} (hp : Below root names n p)
    (hroot : (ensure root).answer h = .ok k) :
    (ensureParent p).answer h =
        ((ensureBelow root names).answer ((ensure root).after h)).map (fun _ => ()) ∧
      (ensureParent p).after h = (ensureBelow root names).after ((ensure root).after h) := by
  rw [ensureParent_eq hp]
  simp only [Act.answer_bind, Act.after_bind, hroot]
  exact ensureFrom_made _ _ _ _ _

theorem ensureParent_fromDisk (p : Path) : (ensureParent p).FromDisk := by
  unfold ensureParent
  split
  · exact .pure _
  · exact .bind (ensureFrom_fromDisk _ _ _) fun _ => .pure _

theorem grows_ensureParent (p : Path) (h : Host) :
    h.disk.Grows ((ensureParent p).after h).disk :=
  (does_ensureParent fun _ _ => trivial : (ensureParent p).Does fun _ => True).grows h

/-- Behind a directory that was made sure of, the path of what is to lie in it enters it, if it is
one that is looked up. -/
theorem exists_enters_of_ensureParent {cs : List Component} {m : String}
    (hname : p.components = cs ++ [.name m]) (hok : (ensureParent p).answer h = .ok ())
    (hreadable : ((ensureParent p).after h).disk.Readable p) :
    ∃ parent loc, Path.components parent = cs ∧
      ((ensureParent p).after h).disk.Enters parent.components loc := by
  obtain ⟨parent, hparent, hcs⟩ := Path.exists_parent?_of_name hname
  have horigin := hreadable.origin
  rw [Disk.origin_eq, hname, Disk.originOf_concat, ← hcs] at horigin
  simp only [ensureParent, hparent, Act.answer_bind, Act.answer_pure] at hok
  cases hensured : (ensure parent).answer h with
  | error e =>
    rw [hensured] at hok
    cases hok
  | ok made =>
    have hafter : (ensureParent p).after h = (ensure parent).after h := by
      simp [ensureParent, hparent]
    rw [hafter] at horigin ⊢
    obtain ⟨loc, henters⟩ := (stands_of_ensureFrom hensured).exists_enters horigin
    exact ⟨parent, loc, hcs, henters⟩

theorem deliver_fromDisk (p : Path) (bytes : ByteArray) : (deliver p bytes).FromDisk := by
  refine .bind (ensureParent_fromDisk p) fun answer => ?_
  cases answer with
  | error e => exact .pure _
  | ok _ =>
    refine .bind (.change _) fun answer => ?_
    cases answer <;> exact .pure _

/-- Making sure of a root first and then of a directory below it is making sure of the latter. -/
theorem ensureParent_ensured (hp : Below root names n p) (h : Host) :
    (ensureParent p).answer ((ensure root).after h) = (ensureParent p).answer h ∧
      ((ensureParent p).after ((ensure root).after h)).disk = ((ensureParent p).after h).disk := by
  cases hroot : (ensure root).answer h with
  | error e =>
    -- the root fails again, and nothing behind it is looked at
    obtain ⟨hagain, hdisk⟩ : (ensure root).answer ((ensure root).after h) = .error e ∧ _ :=
      ensureFrom_error_again hroot rfl
    obtain ⟨hanswer, hafter⟩ := ensureParent_of_error hp hroot
    obtain ⟨hanswer', hafter'⟩ := ensureParent_of_error hp hagain
    rw [hanswer, hafter, hanswer', hafter']
    exact ⟨rfl, hdisk⟩
  | ok k =>
    obtain ⟨hagain, hsame⟩ : (ensure root).answer ((ensure root).after h) = .ok 0 ∧
        (ensure root).after ((ensure root).after h) = (ensure root).after h :=
      ensureFrom_of_stands (stands_of_ensureFrom hroot) 0
    obtain ⟨hanswer, hafter⟩ := ensureParent_of_ok hp hroot
    obtain ⟨hanswer', hafter'⟩ := ensureParent_of_ok hp hagain
    rw [hanswer, hafter, hanswer', hafter', hsame]
    exact ⟨rfl, rfl⟩

/-- It does not matter to a delivery whether the root was made sure of before. -/
theorem deliver_ensured (bytes : ByteArray) (hp : Below root names n p) (h : Host) :
    (deliver p bytes).answer ((ensure root).after h) = (deliver p bytes).answer h ∧
      ((deliver p bytes).after ((ensure root).after h)).disk =
        ((deliver p bytes).after h).disk := by
  obtain ⟨hanswer, hdisk⟩ := ensureParent_ensured hp h
  simp only [deliver, Act.answer_bind, Act.after_bind, hanswer]
  cases (ensureParent p).answer h with
  | error e => exact ⟨rfl, hdisk⟩
  | ok _ =>
    refine Act.FromDisk.bind (.change _) (fun answer => ?_) _ _ hdisk
    cases answer <;> exact .pure _

/-! ### Below a directory that stands -/

/-- The root stands, its path enters `base`, and no links stand below it. -/
structure Site (d : Disk) (root : Path) (base : Location) : Prop where
  stands : Stands d ⟨""⟩ root.components
  enters : d.Enters root.components base
  free : ∀ more, d.link? (base ++ more) = none

/-- A root that stands is a site, if its path is read from a directory. -/
theorem exists_site (hstands : Stands d ⟨""⟩ root.components) (hfree : d.LinkFreeBelow root)
    (horigin : d.node? (d.originOf root.components) = some .folder) :
    ∃ base, Site d root base := by
  obtain ⟨base, henters⟩ := hstands.exists_enters horigin
  exact ⟨base, hstands, henters, hfree base henters.reaches⟩

theorem Site.grows (hgrows : d.Grows d') (hsite : Site d root base) : Site d' root base where
  stands := hsite.stands.grows hgrows
  enters := hsite.enters.grows hgrows
  free := fun more => (hgrows.links _).trans (hsite.free more)

theorem Site.linkFreeBelow (hsite : Site d root base) : d.LinkFreeBelow root := by
  intro base' hbase'
  obtain rfl := hbase'.unique hsite.enters.reaches
  exact hsite.free

/-- A file below a site that can be read stands where its names lead. -/
theorem Site.readFile (hsite : Site d root base) (hp : Below root names n p)
    (hread : d.readFile p = .ok bytes) :
    ∃ t m, d.node? (base ++ names ++ [n]) = some (.file bytes t m) := by
  obtain ⟨loc, t, m, hreaches, hfile⟩ := Disk.exists_reaches_of_readFile hread
  obtain ⟨base', hbase', rfl⟩ :=
    (Disk.reaches_below hsite.linkFreeBelow hp.components_eq).1 hreaches
  obtain rfl := hbase'.unique hsite.enters.reaches
  exact ⟨t, m, by rw [List.append_assoc, hfile]⟩

/-- What comes of a delivery, told from the disk that it finds. -/
def outcome (d : Disk) (root : Path) (base : Location) (names : List String) (n : String)
    (p : Path) : Except (DirectoryError ⊕ Fault) Unit :=
  match obstacle d (Path.ofComponents root.components) base names with
  | .error e => .error (.inl e)
  | .ok () =>
    match d.writeFault? p n (base ++ names) with
    | some fault => .error (.inr fault)
    | none => .ok ()

/-- Nothing matters to a delivery but files in the place of its directories, and a directory in
the place of its file. -/
theorem outcome_congr
    (hfiles : ∀ more, more ≠ [] → more <+: names →
      (d'.node? (base ++ more)).any Node.isFile = (d.node? (base ++ more)).any Node.isFile)
    (hfolder : d'.node? (base ++ names ++ [n]) = some .folder ↔
      d.node? (base ++ names ++ [n]) = some .folder) :
    outcome d' root base names n p = outcome d root base names n p := by
  rw [outcome, outcome, obstacle_congr hfiles, Disk.writeFault?, Disk.writeFault?]
  simp only [hfolder]

/-- On a site the root is passed, and making sure goes on from there. -/
theorem ensureParent_site (hsite : Site h.disk root base) (hp : Below root names n p) :
    (ensureParent p).answer h = ((ensureBelow root names).answer h).map (fun _ => ()) ∧
      (ensureParent p).after h = (ensureBelow root names).after h := by
  obtain ⟨hpassed, hsame⟩ : (ensure root).answer h = .ok 0 ∧ (ensure root).after h = h :=
    ensureFrom_of_stands hsite.stands 0
  obtain ⟨hanswer, hafter⟩ := ensureParent_of_ok hp hpassed
  rw [hanswer, hafter, hsame]
  exact ⟨rfl, rfl⟩

/-- Whether the way to a file is free, and what is there once it is. -/
theorem ensureBelow_site (hsite : Site h.disk root base) (hp : Below root names n p) :
    ((ensureBelow root names).answer h).map (fun _ => ()) =
        obstacle h.disk (Path.ofComponents root.components) base names ∧
      (obstacle h.disk (Path.ofComponents root.components) base names = .ok () →
        ((ensureBelow root names).after h).disk.Enters
          (root.components ++ names.map .name) (base ++ names)) ∧
      h.disk.Grows ((ensureBelow root names).after h).disk ∧
      ∀ other, (∀ more, more ≠ [] → more <+: names → other ≠ base ++ more) →
        ((ensureBelow root names).after h).disk.node? other = h.disk.node? other := by
  have hcomponents := Path.components_ofComponents (Path.canonical_components root)
  obtain ⟨hobstacle, henters, hother⟩ := ensureFrom_names 0 hcomponents
    hsite.enters hsite.free hp.isEntryName
  exact ⟨hobstacle, henters, grows_ensureFrom _ _ _ _, hother⟩

/-- The place of a file is none of those of the directories on the way. -/
theorem place_ne {more : List String} (hmore : more <+: names) :
    base ++ names ++ [n] ≠ base ++ more := by
  intro heq
  have hlength := congrArg List.length heq
  have := hmore.length_le
  simp only [List.length_append, List.length_singleton] at hlength
  omega

/-- Once the directories are there, writing fails for what stands at the place of the file. -/
theorem write_site (hsite : Site h.disk root base) (hp : Below root names n p)
    (hclear : obstacle h.disk (Path.ofComponents root.components) base names = .ok ())
    (hgrows : ((ensureParent p).after h).disk.Grows d) (bytes : ByteArray) :
    match d.writeFault? p n (base ++ names) with
    | some fault => d.writeFile p bytes = .error fault
    | none => ∃ mode, d.writeFile p bytes = .ok (d.putFile (base ++ names ++ [n]) bytes mode) ∧
        ∀ b t m, d.node? (base ++ names ++ [n]) = some (.file b t m) → mode = m := by
  obtain ⟨-, henters, hbelow, -⟩ := ensureBelow_site hsite hp
  rw [(ensureParent_site hsite hp).2] at hgrows
  refine ((henters hclear).grows hgrows).writeFile_entry hp.neat hp.components ?_ bytes
  rw [(hbelow.trans hgrows).links, List.append_assoc]
  exact hsite.free _

/-- A delivery on a site comes to the outcome that its disk tells. -/
theorem answer_deliver (hsite : Site h.disk root base) (hp : Below root names n p) :
    (deliver p bytes).answer h = outcome h.disk root base names n p := by
  obtain ⟨hanswer, hafter⟩ := ensureParent_site hsite hp
  obtain ⟨hobstacle, -, -, hother⟩ := ensureBelow_site hsite hp
  have hplace := hother (base ++ names ++ [n]) fun _ _ hmore => place_ne hmore
  rw [hobstacle] at hanswer
  rw [← hafter] at hplace
  have hfault : ((ensureParent p).after h).disk.writeFault? p n (base ++ names) =
      h.disk.writeFault? p n (base ++ names) := by
    rw [Disk.writeFault?, Disk.writeFault?, hplace]
  rw [outcome]
  cases hclear : obstacle h.disk (Path.ofComponents root.components) base names with
  | error e =>
    rw [hclear] at hanswer
    exact (deliver_blocked _ hanswer).1
  | ok _ =>
    rw [hclear] at hanswer
    have hwrite := write_site hsite hp hclear (.refl _) bytes
    rw [hfault] at hwrite
    cases hrefused : h.disk.writeFault? p n (base ++ names) with
    | some fault =>
      rw [hrefused] at hwrite
      exact (deliver_refused hanswer hwrite).1
    | none =>
      rw [hrefused] at hwrite
      obtain ⟨mode, hwrite, -⟩ := hwrite
      exact (deliver_written hanswer hwrite).1

/-- Making sure of the directories changes nothing but places along the names at which nothing
stands. -/
theorem ensureParent_changes (hsite : Site h.disk root base) (hp : Below root names n p)
    (other : Location) :
    ((ensureParent p).after h).disk.node? other = h.disk.node? other ∨
      h.disk.node? other = none ∧ ((ensureParent p).after h).disk.node? other = some .folder ∧
        ∃ more, more <+: names ∧ other = base ++ more := by
  by_cases hway : ∃ more, more <+: names ∧ other = base ++ more
  · have hmakes : (ensureParent p).Does fun deed => ∀ q bytes, deed ≠ .wrote q bytes :=
      does_ensureParent fun _ _ => nofun
    obtain ⟨deeds, hdeeds, hmade⟩ := hmakes h
    rcases hdeeds.node?_eq_or other with
      hsame | ⟨_, _, _, hnone, hfolder⟩ | ⟨q, bytes, _, _, hwrote, _⟩
    · exact Or.inl hsame
    · exact Or.inr ⟨hnone, hfolder, hway⟩
    · exact absurd rfl (hmade _ hwrote q bytes)
  · left
    rw [(ensureParent_site hsite hp).2]
    obtain ⟨-, -, -, hother⟩ := ensureBelow_site hsite hp
    exact hother other fun more _ hmore heq => hway ⟨more, hmore, heq⟩

/-- A delivery changes nothing but these places, and the one of its file. -/
theorem deliver_changes (hsite : Site h.disk root base) (hp : Below root names n p)
    (bytes : ByteArray) (other : Location) :
    ((deliver p bytes).after h).disk.node? other = h.disk.node? other ∨
      (h.disk.node? other = none ∧ ((deliver p bytes).after h).disk.node? other = some .folder ∧
        ∃ more, more <+: names ∧ other = base ++ more) ∨
      (∃ b t m, ((deliver p bytes).after h).disk.node? other = some (.file b t m)) ∧
        other = base ++ names ++ [n] := by
  have hparents := ensureParent_changes hsite hp other
  cases hparent : (ensureParent p).answer h with
  | error e =>
    rw [(deliver_blocked bytes hparent).2]
    exact hparents.imp id Or.inl
  | ok _ =>
    have hclear : obstacle h.disk (Path.ofComponents root.components) base names = .ok () := by
      rw [← (ensureBelow_site hsite hp).1, ← (ensureParent_site hsite hp).1, hparent]
    have hwrite := write_site hsite hp hclear (.refl _) bytes
    split at hwrite
    · rw [(deliver_refused hparent hwrite).2]
      exact hparents.imp id Or.inl
    · obtain ⟨mode, hwrite, -⟩ := hwrite
      rw [(deliver_written hparent hwrite).2, Disk.node?_putFile _ (by simp)]
      split
      · next hplace => exact Or.inr (Or.inr ⟨⟨_, _, _, rfl⟩, hplace⟩)
      · exact hparents.imp id Or.inl

/-- A delivery does not matter to another one, if neither of the two files lies at or below the
place of the other. -/
theorem outcome_deliver {q : Path} {others : List String} {m : String}
    (hsite : Site h.disk root base) (hq : Below root others m q)
    (hnot : ¬ others ++ [m] <+: names ++ [n]) (hnot' : ¬ names ++ [n] <+: others ++ [m]) :
    outcome ((deliver q bytes).after h).disk root base names n p =
      outcome h.disk root base names n p := by
  refine outcome_congr (fun more _ hmore => ?_) ?_
  · rcases deliver_changes hsite hq bytes (base ++ more) with
      hsame | ⟨hnone, hfolder, _⟩ | ⟨_, hplace⟩
    · rw [hsame]
    · rw [hnone, hfolder]
      rfl
    · rw [List.append_assoc] at hplace
      obtain rfl := List.append_cancel_left hplace
      exact absurd (hmore.trans (List.prefix_append _ _)) hnot
  · rcases deliver_changes hsite hq bytes (base ++ names ++ [n]) with
      hsame | ⟨_, _, more, hmore, hplace⟩ | ⟨_, hplace⟩
    · rw [hsame]
    · rw [List.append_assoc] at hplace
      obtain rfl := List.append_cancel_left hplace
      exact absurd (hmore.trans (List.prefix_append _ _)) hnot'
    · rw [List.append_assoc, List.append_assoc] at hplace
      exact absurd (List.append_cancel_left hplace ▸ List.prefix_refl _) hnot

/-- On a disk that has all that making sure of the directories of a file left, it answers the same
once more and changes nothing. -/
theorem ensureParent_again (hsite : Site h.disk root base) (hp : Below root names n p)
    (hgrows : ((ensureParent p).after h).disk.Grows h'.disk) :
    (ensureParent p).answer h' = (ensureParent p).answer h ∧ (ensureParent p).after h' = h' := by
  obtain ⟨hanswer, hafter⟩ := ensureParent_site hsite hp
  have hgrown : h.disk.Grows h'.disk := (grows_ensureParent p h).trans hgrows
  obtain ⟨hanswer', hafter'⟩ := ensureParent_site (hsite.grows hgrown) hp
  rw [hafter] at hgrows
  obtain ⟨hagain, hsame⟩ := ensureFrom_names_again 0 0
    (Path.components_ofComponents (Path.canonical_components root))
    hsite.enters hsite.free hp.isEntryName hgrows
  exact ⟨hanswer'.trans (hagain.trans hanswer.symm), hafter'.trans hsame⟩

/-- On a disk that has all that a delivery left, a delivery to the same path answers the same.
One that failed changes nothing, and one that did not finds the file there and writes it. -/
theorem deliver_again (bytes' : ByteArray) (hsite : Site h.disk root base)
    (hp : Below root names n p) (hgrows : ((deliver p bytes).after h).disk.Grows h'.disk) :
    (deliver p bytes').answer h' = (deliver p bytes).answer h ∧
      match (deliver p bytes).answer h with
      | .error _ => ((deliver p bytes').after h').disk = h'.disk
      | .ok () => ∃ b t m, h'.disk.node? (base ++ names ++ [n]) = some (.file b t m) ∧
          ((deliver p bytes').after h').disk = h'.disk.putFile (base ++ names ++ [n]) bytes' m := by
  obtain ⟨hanswer, -⟩ := ensureParent_site hsite hp
  obtain ⟨hobstacle, -⟩ := ensureBelow_site hsite hp
  cases hparent : (ensureParent p).answer h with
  | error e =>
    obtain ⟨hdelivered, hleft⟩ := deliver_blocked bytes hparent
    rw [hleft] at hgrows
    obtain ⟨hparent', hsame⟩ := ensureParent_again hsite hp hgrows
    obtain ⟨hdelivered', hleft'⟩ := deliver_blocked bytes' (hparent'.trans hparent)
    rw [hdelivered, hdelivered', hleft', hsame]
    exact ⟨rfl, rfl⟩
  | ok _ =>
    have hclear : obstacle h.disk (Path.ofComponents root.components) base names = .ok () := by
      rw [← hobstacle, ← hanswer, hparent]
    have hwrite := write_site hsite hp hclear (.refl _) bytes
    cases hfault : ((ensureParent p).after h).disk.writeFault? p n (base ++ names) with
    | some fault =>
      rw [hfault] at hwrite
      obtain ⟨hdelivered, hleft⟩ := deliver_refused hparent hwrite
      rw [hleft] at hgrows
      obtain ⟨hparent', hsame⟩ := ensureParent_again hsite hp hgrows
      have hwrite' := write_site hsite hp hclear hgrows bytes'
      rw [Disk.writeFault?_grows hgrows hfault, ← hsame] at hwrite'
      obtain ⟨hdelivered', hleft'⟩ := deliver_refused (hparent'.trans hparent) hwrite'
      rw [hdelivered, hdelivered', hleft', hsame]
      exact ⟨rfl, rfl⟩
    | none =>
      rw [hfault] at hwrite
      obtain ⟨mode, hwrite, -⟩ := hwrite
      obtain ⟨hdelivered, hleft⟩ := deliver_written hparent hwrite
      have hne : base ++ names ++ [n] ≠ [] := by simp
      have hwritten := Disk.node?_putFile ((ensureParent p).after h).disk hne bytes mode
        (base ++ names ++ [n])
      rw [if_pos rfl] at hwritten
      rw [hleft] at hgrows
      obtain ⟨b, t, m, hfile⟩ := hgrows.file hwritten
      -- the file was written where nothing or a file stood, so nothing else is lost
      have hrun : Deed.run (.wrote p bytes) ((ensureParent p).after h).disk = .ok _ := hwrite
      have hgrown : ((ensureParent p).after h).disk.Grows h'.disk :=
        (Disk.run_ok hrun).1.trans hgrows
      obtain ⟨hparent', hsame⟩ := ensureParent_again hsite hp hgrown
      have hwrite' := write_site hsite hp hclear hgrown bytes'
      rw [Disk.writeFault?_of_file hfault hfile] at hwrite'
      obtain ⟨mode', hwrite', hkept⟩ := hwrite'
      obtain rfl := hkept b t m hfile
      rw [← hsame] at hwrite'
      obtain ⟨hdelivered', hleft'⟩ := deliver_written (hparent'.trans hparent) hwrite'
      rw [hdelivered, hdelivered']
      rw [hsame] at hleft'
      exact ⟨rfl, b, t, mode', hfile, hleft'⟩

end GemCourier.Directory
