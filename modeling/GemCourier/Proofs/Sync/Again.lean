/-
GemCourier/Proofs/Sync/Again.lean

A pass that is made again.

The second pass finds much that the first one did not: directories are there by
now, files were overwritten, and a copy that failed may have got half of its
way.  None of it matters.  Every copy is a delivery below the storage, and a
delivery answers the same on whatever has grown from the disk that it left.
What it writes the second time is what stands there already, as long as the
source is what it was, so the two disks differ in times at most (`Alike`).

A source may itself be the place of a copy.  It then holds the bytes of that
copy until the end of the pass, for no other copy goes there, so if it holds in
the end what it held at first, it did so when its turn came.

Main results: `copyFiles_again`, `syncOnce_again`.
-/
import GemCourier.Proofs.Host.Delivery
import GemCourier.Proofs.Sync.Pass

namespace GemCourier

/-! ### Disks that differ in times -/

/-- The node as it is, whenever it was written. -/
def Node.untimed : Node → Node
  | .file bytes _ mode => .file bytes 0 mode
  | .folder => .folder
  | .link target => .link target

namespace Disk

/-- The same directories, links and files stand at the same places, with the same bytes and
modes. -/
structure Alike (d d' : Disk) : Prop where
  start : d'.start = d.start
  same : ∀ loc, (d'.node? loc).map Node.untimed = (d.node? loc).map Node.untimed

variable {d d' d'' : Disk} {loc : Location} {p : Path} {bytes : ByteArray} {t : Int} {mode : Nat}

theorem Alike.refl (d : Disk) : d.Alike d where
  start := rfl
  same := fun _ => rfl

theorem Alike.trans (h : d.Alike d') (h' : d'.Alike d'') : d.Alike d'' where
  start := h'.start.trans h.start
  same := fun loc => (h'.same loc).trans (h.same loc)

theorem Alike.file (h : d.Alike d') (hfile : d.node? loc = some (.file bytes t mode)) :
    ∃ t', d'.node? loc = some (.file bytes t' mode) := by
  have hsame := h.same loc
  rw [hfile] at hsame
  obtain ⟨node, hnode, huntimed⟩ := Option.map_eq_some_iff.1 hsame
  cases node with
  | file b t' m =>
    cases huntimed
    exact ⟨t', hnode⟩
  | folder => cases huntimed
  | link target => cases huntimed

theorem Alike.grows (h : d.Alike d') : d.Grows d' where
  start := h.start
  stays := by
    intro loc node hnode
    have hsame := h.same loc
    rw [hnode] at hsame
    obtain ⟨node', hnode', huntimed⟩ := Option.map_eq_some_iff.1 hsame
    refine ⟨node', hnode', ?_⟩
    cases node <;> cases node' <;> cases huntimed <;> constructor
  links := by
    intro loc
    have hsame := h.same loc
    rw [link?, link?]
    rcases hnode : d.node? loc with _ | (_ | _ | _) <;>
      rcases hnode' : d'.node? loc with _ | (_ | _ | _) <;>
      simp_all [Node.untimed]

/-- What can be read from a disk can be read from one that is alike. -/
theorem Alike.readFile (h : d.Alike d') (hread : d.readFile p = .ok bytes) :
    d'.readFile p = .ok bytes := by
  obtain ⟨t, mode, hnode⟩ := readFile_ok_iff.1 hread
  obtain ⟨loc, hfind, hfile⟩ := node_ok_iff.1 hnode
  obtain ⟨t', hfile'⟩ := h.file hfile
  have hfind' := find_through_of_grows h.grows (by simp [Settled]) hfind
  exact readFile_ok_iff.2 ⟨t', mode, node_ok_iff.2 ⟨loc, hfind', hfile'⟩⟩

/-- A file that is written with the bytes and the mode that it has changes its time only. -/
theorem alike_putFile (hloc : loc ≠ []) (hfile : d.node? loc = some (.file bytes t mode)) :
    d.Alike (d.putFile loc bytes mode) where
  start := rfl
  same := by
    intro other
    rw [node?_putFile d hloc]
    split
    · next hother => rw [hother, hfile]; rfl
    · rfl

end Disk

namespace Sync

open Directory (deliver Site Below)

/-- Why a file was not copied, if its bytes were not delivered to its destination. -/
def CopyError.ofDelivery (destination : Path) : DirectoryError ⊕ Fault → CopyError
  | .inl e => .prepareDirectory destination e
  | .inr fault => .write destination fault

namespace Placement

variable {m : Placement} {storage source q : Path} {sources : List Path} {base : Location}
  {names : List String} {n : String} {h h' : Host} {bytes : ByteArray}

/-! ### A copy is a delivery -/

/-- Storing bytes at a destination is delivering them, and says so. -/
theorem store_eq (source destination : Path) (bytes : ByteArray) (h : Host) :
    (store source destination bytes).answer h =
        ((deliver destination bytes).answer h).mapError (.ofDelivery destination) ∧
      ((store source destination bytes).after h).disk =
        ((deliver destination bytes).after h).disk := by
  simp only [store, deliver, Act.answer_bind, Act.after_bind]
  cases (Directory.ensureParent destination).answer h with
  | error e => exact ⟨rfl, rfl⟩
  | ok _ =>
    simp only [Act.answer_bind, Act.after_bind]
    cases (Act.change (·.writeFile destination bytes)).answer
      ((Directory.ensureParent destination).after h) <;> exact ⟨rfl, rfl⟩

/-- What a copy answers, told from the delivery of the bytes that were read. -/
def copied (destination : Path) (answer : Except (DirectoryError ⊕ Fault) Unit) :
    Except CopyError (Option Path) :=
  (answer.mapError (.ofDelivery destination)).map fun _ => some destination

theorem copyFile_delivers (hq : m.destination? source = some q)
    (hread : h.disk.readFile source = .ok bytes) :
    (m.copyFile source).answer h = copied q ((deliver q bytes).answer h) ∧
      ((m.copyFile source).after h).disk = ((deliver q bytes).after h).disk := by
  obtain ⟨hanswer, hdisk⟩ := store_eq source q bytes h
  exact ⟨by simp [copyFile, hq, hread, hanswer, copied], by simp [copyFile, hq, hread, hdisk]⟩

/-- A destination is written with its name at the end. -/
theorem neat_destination {front : List Component} (hfits : m.Fits storage)
    (hq : m.destination? source = some q) (hcomponents : q.components = front ++ [.name n]) :
    q.Neat n := by
  rw [destination?] at hq
  split at hq
  · next relative hrelative =>
    obtain ⟨library, hlibrary, hrelative⟩ := Option.bind_eq_some_iff.1 hrelative
    rw [inLibrary?] at hq
    split at hq
    · next hnames =>
      obtain rfl : m.buckets.lib.join relative = q := Option.some.inj hq
      obtain ⟨tail, htail⟩ := Component.all_isName_iff.1 hnames.2
      have hjoinable : relative.Joinable := by
        refine Path.joinable_of_components fun c hc => ?_
        obtain ⟨piece, -, rfl⟩ := List.mem_map.1 (htail ▸ List.mem_of_mem_head? hc)
        exact ⟨by simp, by simp⟩
      obtain ⟨outer, last, rfl⟩ : ∃ outer last, tail = outer ++ [last] := by
        rcases List.eq_nil_or_concat tail with rfl | ⟨outer, last, hconcat⟩
        · exact absurd htail hnames.1
        · exact ⟨outer, last, by rw [hconcat, List.concat_eq_append]⟩
      rw [List.map_append] at htail
      rw [Path.components_join_relative hjoinable, htail, ← List.append_assoc] at hcomponents
      obtain ⟨-, hlast⟩ := List.append_inj' hcomponents rfl
      obtain rfl : last = n := by simpa using hlast
      refine Path.neat_join (Path.neat_relativeTo? ?_ hrelative htail) hjoinable.relative
      rw [hfits.library library hlibrary, components_candidate]
      simp
    · cases hq
  · rw [inHome?] at hq
    split at hq
    · obtain ⟨k, hk, rfl⟩ := Option.map_eq_some_iff.1 hq
      have hentry : IsEntryName k := by
        rw [Path.fileName?] at hk
        split at hk
        · next last hlast =>
          obtain rfl := Option.some.inj hk
          exact (Path.canonical_components source).names _ (List.mem_of_getLast? hlast)
        · cases hk
      rw [Path.components_child hentry] at hcomponents
      obtain ⟨-, hlast⟩ := List.append_inj' hcomponents rfl
      obtain rfl : k = n := by simpa using hlast
      exact Path.neat_child hentry
    · cases hq

/-- What a scan lists goes below the storage. -/
theorem exists_below_of_mem {d : Disk} (hfits : m.Fits storage) (hd : d.WellFormed)
    (hs : source ∈ sourcesOn d m.sets) :
    ∃ q names n, m.destination? source = some q ∧ Below storage names n q := by
  obtain ⟨q, tail, hq, hplaced, hcomponents⟩ := destination_of_mem hfits hd hs
  obtain ⟨names, n, rfl⟩ : ∃ names n, tail = names ++ [n] := by
    rcases hplaced with ⟨n, -, -, rfl⟩ | ⟨tail, hne, -, rfl⟩
    · exact ⟨["home"], n, rfl⟩
    · obtain ⟨front, last, rfl⟩ := List.eq_nil_or_concat tail |>.resolve_left hne
      exact ⟨"lib" :: front, last, by simp⟩
  rw [List.map_append, ← List.append_assoc] at hcomponents
  exact ⟨q, names, n, hq, hcomponents, neat_destination hfits hq hcomponents⟩

/-! ### The copies once more -/

/-- A copy that is made again, of the same bytes, answers the same.  If what it left was not
written over, the disk differs in times at most. -/
theorem copyFile_again (hsite : Site h.disk storage base) (hbelow : Below storage names n q)
    (hq : m.destination? source = some q) (hread : h.disk.readFile source = .ok bytes)
    (hread' : h'.disk.readFile source = .ok bytes)
    (hgrows : ((m.copyFile source).after h).disk.Grows h'.disk)
    (hkept : ((m.copyFile source).after h).disk.readFile q = .ok bytes →
      h'.disk.readFile q = .ok bytes) :
    (m.copyFile source).answer h' = (m.copyFile source).answer h ∧
      h'.disk.Alike ((m.copyFile source).after h').disk := by
  obtain ⟨hanswer, hdisk⟩ := copyFile_delivers hq hread
  obtain ⟨hanswer', hdisk'⟩ := copyFile_delivers hq hread'
  rw [hdisk] at hgrows hkept
  obtain ⟨hagain, hleft⟩ := Directory.deliver_again bytes hsite hbelow hgrows
  refine ⟨by rw [hanswer, hanswer', hagain], ?_⟩
  rw [hdisk']
  cases hdelivered : (deliver q bytes).answer h with
  | error e =>
    rw [hdelivered] at hleft
    rw [show ((deliver q bytes).after h').disk = h'.disk from hleft]
    exact .refl _
  | ok _ =>
    rw [hdelivered] at hleft
    obtain ⟨b, t, mode, hfile, hput⟩ := hleft
    have hgrown : h.disk.Grows h'.disk := (Directory.grows_deliver q bytes h).trans hgrows
    obtain ⟨t', mode', hfile'⟩ := (hsite.grows hgrown).readFile hbelow
      (hkept (Directory.readFile_of_deliver hdelivered))
    obtain ⟨rfl, rfl, rfl⟩ : b = bytes ∧ t = t' ∧ mode = mode' := by
      simpa using hfile.symm.trans hfile'
    rw [hput]
    exact Disk.alike_putFile (by simp) hfile

section Kept

variable {d mid after : Disk} {deeds : List Deed} {p : Path} {loc : Location}

/-- Copies of other sources leave a file at the place of an earlier copy as it is. -/
theorem readFile_of_apart (hgrows : d.Grows mid) (hdeeds : mid.Does deeds after)
    (hserve : ∀ deed ∈ deeds, Serves m sources deed)
    (hapart : ∀ s ∈ sources, ∀ q, m.destination? s = some q → ¬ d.Reaches q loc)
    (hreaches : d.Reaches p loc) (hread : mid.readFile p = .ok bytes) :
    after.readFile p = .ok bytes := by
  refine readFile_of_serves hdeeds hserve hread fun s hs q loc' hq hqloc hploc => ?_
  rw [hgrows.reaches] at hqloc hploc
  obtain rfl := hreaches.unique hploc
  exact hapart s hs q hq hqloc

/-- A file that is in the end what it was before a copy is the same in the end as after this copy:
it lies at the place of the copy and is kept from there on, or the copy leaves it alone. -/
theorem exists_readFile_between (hdeeds : d.Does deeds mid)
    (hserve : ∀ deed ∈ deeds, Serves m [source] deed) (hq : m.destination? source = some q)
    (hkept : ∀ loc b, d.Reaches q loc → d.Reaches p loc → mid.readFile p = .ok b →
      after.readFile p = .ok b)
    (hread : d.readFile p = .ok bytes) (hread' : after.readFile p = .ok bytes) :
    ∃ b, mid.readFile p = .ok b ∧ after.readFile p = .ok b := by
  by_cases hmeets : ∃ loc, d.Reaches q loc ∧ d.Reaches p loc
  · obtain ⟨loc, hqloc, hploc⟩ := hmeets
    obtain ⟨b, hb⟩ := hdeeds.grows.exists_readFile hread
    exact ⟨b, hb, hkept loc b hqloc hploc hb⟩
  · refine ⟨bytes, readFile_of_serves hdeeds hserve hread ?_, hread'⟩
    intro s hs q' loc hq' hq'loc hploc
    obtain rfl : s = source := by simpa using hs
    obtain rfl : q = q' := Option.some.inj (hq.symm.trans hq')
    exact hmeets ⟨loc, hq'loc, hploc⟩

end Kept

/-- Copies that are made again, of sources that hold in the end what they held at first, answer
the same and change nothing but times. -/
theorem copyFiles_again (hsite : Site h.disk storage base)
    (hbelow : ∀ s ∈ sources, ∃ q names n, m.destination? s = some q ∧ Below storage names n q)
    (hdistinct : sources.Pairwise fun s t => ∀ q q' loc, m.destination? s = some q →
      m.destination? t = some q' → h.disk.Reaches q loc → ¬ h.disk.Reaches q' loc)
    (hsame : ∀ s ∈ sources, ∃ bytes, h.disk.readFile s = .ok bytes ∧
      ((m.copyFiles sources).after h).disk.readFile s = .ok bytes)
    (halike : ((m.copyFiles sources).after h).disk.Alike h'.disk) :
    (m.copyFiles sources).answer h' = (m.copyFiles sources).answer h ∧
      h'.disk.Alike ((m.copyFiles sources).after h').disk := by
  induction sources generalizing h h' with
  | nil => exact ⟨rfl, .refl _⟩
  | cons s rest ih =>
    obtain ⟨hafter, hanswer⟩ := copyFiles_cons m s rest h
    obtain ⟨hafter', hanswer'⟩ := copyFiles_cons m s rest h'
    have hmid := disk_after_copyNoted m s h
    have hmid' := disk_after_copyNoted m s h'
    rw [hafter] at hsame halike
    rw [hanswer, hanswer', hafter']
    generalize (m.copyNoted s).after h = mid at hafter hanswer hmid hsame halike ⊢
    generalize (m.copyNoted s).after h' = mid' at hafter' hanswer' hmid' ⊢
    obtain ⟨deeds, hdeeds, hserve⟩ := does_copyFile (m := m) s h
    obtain ⟨more, hmore, hserve'⟩ := does_copyFiles (m := m) rest mid
    rw [← hmid] at hdeeds
    obtain ⟨hapart, hdistinct⟩ := List.pairwise_cons.1 hdistinct
    obtain ⟨q, names, n, hq, hplaced⟩ := hbelow s (by simp)
    -- the later copies leave what lies at the place of this one
    have hkept : ∀ p loc bytes, h.disk.Reaches q loc → h.disk.Reaches p loc →
        mid.disk.readFile p = .ok bytes →
        ((m.copyFiles rest).after mid).disk.readFile p = .ok bytes :=
      fun p loc bytes hqloc => readFile_of_apart hdeeds.grows hmore hserve' fun t ht q' hq' =>
        hapart t ht q q' loc hq hq' hqloc
    -- so the others read now what they read in the end
    have hrest : ∀ t ∈ rest, ∃ bytes, mid.disk.readFile t = .ok bytes ∧
        ((m.copyFiles rest).after mid).disk.readFile t = .ok bytes := by
      intro t ht
      obtain ⟨bytes, hread, hread'⟩ := hsame t (by simp [ht])
      exact exists_readFile_between hdeeds hserve hq (hkept t) hread hread'
    obtain ⟨bytes, hread, hreadAfter⟩ := hsame s (by simp)
    obtain ⟨hagain, halike'⟩ : (m.copyFile s).answer h' = (m.copyFile s).answer h ∧
        h'.disk.Alike mid'.disk := by
      rw [hmid']
      refine copyFile_again hsite hplaced hq hread (halike.readFile hreadAfter) ?_ ?_
      · rw [← hmid]
        exact hmore.grows.trans halike.grows
      · rw [← hmid]
        intro hheld
        obtain ⟨loc, _, _, hreaches, -⟩ := Disk.exists_reaches_of_readFile hheld
        have hqloc := hdeeds.grows.reaches.1 hreaches
        exact halike.readFile (hkept q loc bytes hqloc hqloc hheld)
    obtain ⟨ihanswer, ihalike⟩ := ih (hsite.grows hdeeds.grows)
      (fun t ht => hbelow t (by simp [ht])) (distinct_of_grows hdeeds.grows hdistinct) hrest
      (halike.trans halike')
    rw [hagain, ihanswer]
    exact ⟨rfl, halike'.trans ihalike⟩

/-! ### The buckets once more -/

/-- Buckets that could not be made sure of cannot be on the disk that was left, for the same
reason, and that disk stays as it is. -/
theorem prepareBuckets_error_again {e : PassError} (herror : m.prepareBuckets.answer h = .error e)
    (hdisk : h'.disk = (m.prepareBuckets.after h).disk) :
    m.prepareBuckets.answer h' = .error e ∧ (m.prepareBuckets.after h').disk = h'.disk := by
  cases hhome : (Directory.ensure m.buckets.home).answer h with
  | error cause =>
    have hleft : h'.disk = ((Directory.ensure m.buckets.home).after h).disk := by
      simpa [prepareBuckets, hhome] using hdisk
    obtain ⟨hagain, hsame⟩ : (Directory.ensure m.buckets.home).answer h' = .error cause ∧
        ((Directory.ensure m.buckets.home).after h').disk = h'.disk :=
      Directory.ensureFrom_error_again hhome hleft
    simp only [prepareBuckets, Act.answer_bind, hhome] at herror
    simp only [prepareBuckets, Act.answer_bind, Act.after_bind, hagain]
    exact ⟨herror, hsame⟩
  | ok k =>
    have hstands := Directory.stands_of_ensureFrom hhome
    cases hlib : (Directory.ensure m.buckets.lib).answer
        ((Directory.ensure m.buckets.home).after h) with
    | error cause =>
      have hleft : h'.disk = ((Directory.ensure m.buckets.lib).after
          ((Directory.ensure m.buckets.home).after h)).disk := by
        simpa [prepareBuckets, hhome, hlib] using hdisk
      -- the first bucket stands by now, so it is passed and the failure lies behind it
      have hstands' : Directory.Stands h'.disk ⟨""⟩ m.buckets.home.components := by
        rw [hleft]
        exact hstands.grows (Directory.grows_ensureFrom _ _ _ _)
      obtain ⟨hpassed, hsame⟩ : (Directory.ensure m.buckets.home).answer h' = .ok 0 ∧
          (Directory.ensure m.buckets.home).after h' = h' :=
        Directory.ensureFrom_of_stands hstands' 0
      obtain ⟨hagain, hsame'⟩ : (Directory.ensure m.buckets.lib).answer h' = .error cause ∧
          ((Directory.ensure m.buckets.lib).after h').disk = h'.disk :=
        Directory.ensureFrom_error_again hlib hleft
      simp only [prepareBuckets, Act.answer_bind, hhome, hlib] at herror
      simp only [prepareBuckets, Act.answer_bind, Act.after_bind, hpassed, hsame, hagain]
      exact ⟨herror, hsame'⟩
    | ok k' => simp [prepareBuckets, hhome, hlib] at herror

/-- Both buckets stand once they were made sure of. -/
theorem stands_of_prepareBuckets (hok : m.prepareBuckets.answer h = .ok ()) :
    Directory.Stands (m.prepareBuckets.after h).disk ⟨""⟩ m.buckets.home.components ∧
      Directory.Stands (m.prepareBuckets.after h).disk ⟨""⟩ m.buckets.lib.components := by
  cases hhome : (Directory.ensure m.buckets.home).answer h with
  | error cause => simp [prepareBuckets, hhome] at hok
  | ok k =>
    cases hlib : (Directory.ensure m.buckets.lib).answer
        ((Directory.ensure m.buckets.home).after h) with
    | error cause => simp [prepareBuckets, hhome, hlib] at hok
    | ok k' =>
      simp only [prepareBuckets, Act.after_bind, hhome, hlib, Act.after_pure]
      exact ⟨(Directory.stands_of_ensureFrom hhome).grows (Directory.grows_ensureFrom _ _ _ _),
        Directory.stands_of_ensureFrom hlib⟩

/-- Buckets that stand are passed. -/
theorem prepareBuckets_of_stands
    (hhome : Directory.Stands h.disk ⟨""⟩ m.buckets.home.components)
    (hlib : Directory.Stands h.disk ⟨""⟩ m.buckets.lib.components) :
    m.prepareBuckets.answer h = .ok () ∧ m.prepareBuckets.after h = h := by
  obtain ⟨hpassed, hsame⟩ : (Directory.ensure m.buckets.home).answer h = .ok 0 ∧
      (Directory.ensure m.buckets.home).after h = h := Directory.ensureFrom_of_stands hhome 0
  obtain ⟨hpassed', hsame'⟩ : (Directory.ensure m.buckets.lib).answer h = .ok 0 ∧
      (Directory.ensure m.buckets.lib).after h = h := Directory.ensureFrom_of_stands hlib 0
  simp only [prepareBuckets, Act.answer_bind, Act.after_bind, hpassed, hsame, hpassed', hsame']
  exact ⟨rfl, rfl⟩

/-- A storage whose buckets stand is a site. -/
theorem exists_site_of_stands {d : Disk} (hfits : m.Fits storage) (hfree : d.LinkFreeBelow storage)
    (hhome : Directory.Stands d ⟨""⟩ m.buckets.home.components) :
    ∃ base, Site d storage base := by
  rw [hfits.buckets] at hhome
  have hcomponents := components_home storage
  have hparts : Directory.Stands d (Path.ofComponents [])
      (storage.components ++ [.name "home"]) := by
    rw [← hcomponents]
    exact hhome
  -- the bucket is entered, so there is a directory where its path starts
  obtain ⟨_, henters⟩ := Disk.enters_of_isFolder (hparts.last rfl)
  rw [List.nil_append, ← hcomponents, Path.components_ofComponents (Path.canonical_components _),
    hcomponents] at henters
  refine Directory.exists_site hparts.initial hfree ?_
  rw [← Disk.originOf_concat d storage.components "home"]
  exact henters.origin

/-! ### The pass once more -/

/-- If the sources and their bytes are after a pass what they were when it listed them, or if it
was given up, the same pass made again answers the same: as many copies, the same failures in
the same order, or the same bucket that could not be made.  It leaves the directories as they
are, and every file with the bytes that it has. -/
theorem syncOnce_again (storage : Path) (m : Placement) (h : Host) (hfits : m.Fits storage)
    (hd : h.disk.WellFormed) (hfree : h.disk.LinkFreeBelow storage)
    (hsame : ∀ report, m.syncOnce.answer h = .ok report →
      sourcesOn (m.syncOnce.after h).disk m.sets = m.listed h ∧
      ∀ s ∈ m.listed h, (m.syncOnce.after h).disk.readFile s =
        (m.prepareBuckets.after h).disk.readFile s) :
    let first := m.syncOnce.after h
    m.syncOnce.answer first = m.syncOnce.answer h ∧
      first.disk.Alike (m.syncOnce.after first).disk := by
  intro first
  obtain ⟨deeds, hdeeds, -⟩ := does_prepareBuckets m h
  cases hanswer : m.syncOnce.answer h with
  | error e =>
    obtain ⟨hprepare, hleft⟩ := syncOnce_error hanswer
    obtain ⟨hprepare', hleft'⟩ : m.prepareBuckets.answer first = .error e ∧
        (m.prepareBuckets.after first).disk = first.disk :=
      prepareBuckets_error_again hprepare hleft
    refine ⟨by simp [syncOnce, hprepare'], ?_⟩
    have hdisk : (m.syncOnce.after first).disk = first.disk := by
      simpa [syncOnce, hprepare'] using hleft'
    rw [hdisk]
    exact .refl _
  | ok report =>
    obtain ⟨mid, hmid, hreport, hafter⟩ := syncOnce_ok hanswer
    obtain ⟨hsources, hbytes⟩ := hsame report hanswer
    have hprepare : m.prepareBuckets.answer h = .ok () := by
      cases hprepare : m.prepareBuckets.answer h with
      | error e => simp [syncOnce, hprepare] at hanswer
      | ok _ => rfl
    obtain ⟨hhome, hlib⟩ := stands_of_prepareBuckets hprepare
    obtain ⟨base, hsite⟩ := exists_site_of_stands hfits (hfree.grows hdeeds.grows) hhome
    have hready : (m.prepareBuckets.after h).disk.WellFormed := hdeeds.wellFormed hd
    -- the buckets still stand after the copies, so the second pass starts from these
    have hgrows : (m.prepareBuckets.after h).disk.Grows first.disk := by
      obtain ⟨_, hcopies, -⟩ := does_copyFiles (m := m) (m.listed h) mid
      rw [← hmid, hafter]
      exact hcopies.grows
    obtain ⟨hprepare', hleft⟩ := prepareBuckets_of_stands (hhome.grows hgrows) (hlib.grows hgrows)
    have hlisted : m.listed first = m.listed h := by
      rw [listed, hleft]
      exact hsources
    cases hanswer' : m.syncOnce.answer first with
    | error e =>
      rw [(syncOnce_error hanswer').1] at hprepare'
      cases hprepare'
    | ok report' =>
      obtain ⟨mid', hmid', hreport', hafter'⟩ := syncOnce_ok hanswer'
      rw [hlisted] at hreport' hafter'
      rw [hleft] at hmid'
      rw [← hmid] at hsite hbytes hready
      have hlistedMid : m.listed h = sourcesOn mid.disk m.sets := by rw [hmid, listed]
      have hbelow : ∀ s ∈ m.listed h, ∃ q names n, m.destination? s = some q ∧
          Below storage names n q :=
        fun s hs => exists_below_of_mem hfits hready (hlistedMid ▸ hs)
      have hdistinct := distinct_sourcesOn hfits hready hsite.linkFreeBelow
      rw [← hlistedMid] at hdistinct
      have hkept : ∀ s ∈ m.listed h, ∃ bytes, mid.disk.readFile s = .ok bytes ∧
          ((m.copyFiles (m.listed h)).after mid).disk.readFile s = .ok bytes := by
        intro s hs
        obtain ⟨bytes, hread⟩ := exists_readFile_of_mem (hlistedMid ▸ hs)
        refine ⟨bytes, hread, ?_⟩
        rw [← hafter, hbytes s hs, hread]
      have hleftAlike : ((m.copyFiles (m.listed h)).after mid).disk.Alike mid'.disk := by
        rw [hmid', hafter]
        exact .refl _
      obtain ⟨hagain, halike⟩ := copyFiles_again hsite hbelow hdistinct hkept hleftAlike
      rw [hreport', hreport, hagain, hafter', ← hmid']
      exact ⟨rfl, halike⟩

/-- The second pass fails to write the first script where the first one did, copies the second
one again, and leaves the same files. -/
theorem syncOnce_again_blocked :
    blockedPlacement.syncOnce.answer (blockedPlacement.syncOnce.after blockedHost) =
        .ok ⟨1, [(⟨"/p/a.rb"⟩, .write ⟨"/s/home/a.rb"⟩ .isDirectory)]⟩ ∧
      copiedDisk.Alike
        (blockedPlacement.syncOnce.after (blockedPlacement.syncOnce.after blockedHost)).disk := by
  obtain ⟨hanswer, hdisk⟩ := syncOnce_blocked
  have hfits : blockedPlacement.Fits ⟨"/s"⟩ := ⟨nofun, rfl⟩
  have hfree : blockedHost.disk.LinkFreeBelow ⟨"/s"⟩ := fun _ _ _ =>
    Disk.link?_eq_none (by simp [blockedHost]) _
  obtain ⟨hagain, halike⟩ := syncOnce_again ⟨"/s"⟩ blockedPlacement blockedHost hfits (by decide)
    hfree fun _ _ => by
      rw [hdisk, listed_blocked, sourcesOn, findings_blocked (Or.inr rfl)]
      exact ⟨rfl, by decide +kernel⟩
  exact ⟨hagain.trans hanswer, hdisk ▸ halike⟩

end Placement

end Sync

end GemCourier
