/-
GemCourier/Proofs/Disk/Folding.lean

Folding a path, and where it leads.

Folding works on the text alone, so it is wrong about `..` behind a symbolic
link.  Without links it is right: the names on the stack are the location that
the way along the path has reached, and what is taken off again is a directory
that the way went through (`Trodden`).  The folded path goes straight to the
same location through those directories, and its text is no longer than the one
it was folded from, so it is looked up wherever that one is.

Main results: `foldDots_eq_pathOf`, `follow_straight`, `foldDots_normal_and_lookUp`.
-/
import GemCourier.Proofs.Path.Extension
import GemCourier.Proofs.Path.Folding
import GemCourier.Proofs.Sync.Beside

namespace GemCourier

namespace Disk

open GemCourier.Path

variable {d : Disk} {p : Path} {aim : Aim} {folder loc : Location} {steps : List Step}

/-! ### The stack is a location -/

/-- The names behind the root on the stack are where the components lead without links. -/
theorem foldl_foldStep_landing {cs : List Component} (loc : Location) (hroot : .root ∉ cs) :
    cs.foldl foldStep (.root :: loc.map .name) = .root :: (landing loc cs).map .name := by
  induction cs generalizing loc with
  | nil => rfl
  | cons c rest ih =>
    rw [List.mem_cons, not_or] at hroot
    have hnext : ∀ loc', foldStep (.root :: loc.map .name) c = .root :: loc'.map .name →
        landing loc (c :: rest) = landing loc' rest →
        (c :: rest).foldl foldStep (.root :: loc.map .name) =
          .root :: (landing loc (c :: rest)).map .name := by
      intro loc' hstep hlanding
      rw [List.foldl_cons, hstep, ih loc' hroot.2, hlanding]
    cases c with
    | root => exact absurd rfl hroot.1
    | here => exact hnext loc rfl rfl
    | name n => exact hnext (loc ++ [n]) (by simp) rfl
    | up =>
      refine hnext loc.dropLast ?_ rfl
      rcases List.eq_nil_or_concat loc with rfl | ⟨outer, n, rfl⟩
      · rfl
      · rw [List.concat_eq_append, List.map_append, ← List.cons_append, List.map_singleton,
          foldStep_up_name, List.dropLast_concat]

/-- The location that the text of an absolute path leads to, as if there were no links. -/
def straight (p : Path) : Location :=
  landing [] (p.steps.filterMap Step.component?)

theorem foldComponents_of_absolute (h : p.isAbsolute = true) :
    foldComponents p.components = .root :: (straight p).map .name := by
  rw [foldComponents_components, if_pos h]
  exact foldl_foldStep_landing [] p.root_not_mem_moves

/-- An absolute path is folded to the path of the location that its text leads to. -/
theorem foldDots_eq_pathOf (h : p.isAbsolute = true) : p.foldDots = pathOf (straight p) := by
  rw [foldDots, foldComponents_of_absolute h, pathOf]

theorem mem_components_of_mem_straight {n : String} (h : p.isAbsolute = true)
    (hn : n ∈ straight p) : .name n ∈ p.components := by
  refine mem_of_mem_foldComponents ?_
  rw [foldComponents_of_absolute h]
  exact List.mem_cons_of_mem _ (List.mem_map_of_mem hn)

theorem isEntryName_of_mem_straight {n : String} (h : p.isAbsolute = true) (hn : n ∈ straight p) :
    IsEntryName n :=
  (canonical_components p).names n (mem_components_of_mem_straight h hn)

theorem spread_landing_le (loc : Location) (cs : List Component) :
    spread (landing loc cs) ≤ spread loc + spread (cs.map Component.text) := by
  induction cs generalizing loc with
  | nil => simp [landing]
  | cons c rest ih =>
    rw [List.map_cons, spread_cons]
    cases c with
    | root =>
      have := ih []
      simp only [landing, spread_nil] at this ⊢
      omega
    | here =>
      have := ih loc
      simp only [landing] at this ⊢
      omega
    | up =>
      have := ih loc.dropLast
      have := spread_dropLast_le loc
      simp only [landing] at this ⊢
      omega
    | name n =>
      have := ih (loc ++ [n])
      simp only [landing, Component.text, spread_append, spread_cons, spread_nil] at this ⊢
      omega

theorem pathOf_eq_descend (loc : Location) : pathOf loc = (Path.mk "/").descend loc := by
  rw [pathOf, ofComponents, List.foldl_cons, List.foldl_map]
  rfl

/-- The path of a location takes no more bytes than the slash of the root, or than its names with
a slash before each. -/
theorem utf8ByteSize_pathOf_le (loc : Location) :
    (pathOf loc).text.utf8ByteSize ≤ max 1 (spread loc) := by
  have hnames : (loc.map Component.name).map Component.text = loc := by
    rw [List.map_map]
    exact List.map_id' loc
  have hroot := utf8ByteSize_ofComponents_root_le (loc.map .name)
  rw [hnames] at hroot
  exact hroot

/-! ### The straight way -/

/-- The location is one that a way has gone down to: what stands on the way to it, and at it, are
directories with names that are not too long. -/
def Trodden (d : Disk) (loc : Location) : Prop :=
  ∀ outer n, outer ++ [n] <+: loc →
    d.node? (outer ++ [n]) = some .folder ∧ ¬ longestName < n.utf8ByteSize

theorem trodden_nil : d.Trodden [] := by
  intro outer n hbelow
  simp at hbelow

theorem Trodden.initial {outer : Location} (h : d.Trodden loc) (houter : outer <+: loc) :
    d.Trodden outer :=
  fun front n hfront => h front n (hfront.trans houter)

theorem Trodden.down {n : String} (h : d.Trodden loc) (hnode : d.node? (loc ++ [n]) = some .folder)
    (hname : ¬ longestName < n.utf8ByteSize) : d.Trodden (loc ++ [n]) := by
  intro outer m hbelow
  rcases List.prefix_concat_iff.1 hbelow with heq | hinner
  · obtain ⟨rfl, hm⟩ := List.append_inj' heq rfl
    obtain rfl := List.cons.inj hm |>.1
    exact ⟨hnode, hname⟩
  · exact h outer m hinner

/-- Straight down to a place that was gone down to, and on from there. -/
theorem follow_straight (h : d.Trodden loc) (aim : Aim) (more : List String) :
    d.follow aim [] ((loc ++ more).map .down) = d.follow aim loc (more.map .down) := by
  induction loc using List.reverseRecOn generalizing more with
  | nil => rfl
  | append_singleton outer n ih =>
    obtain ⟨hnode, hname⟩ := h outer n (List.prefix_refl _)
    rw [List.append_assoc, List.singleton_append, ih (h.initial (List.prefix_append _ _))]
    have hslash : more.map Step.down ≠ [.slash] := by
      cases more <;> simp
    simp [follow, hnode, hname, hslash]

/-- Where a way ends on a disk without links is where its steps lead by their text, and the way
straight down to it ends there too. -/
theorem follow_names_of_follow (hfree : ∀ loc, d.link? loc = none) (htrodden : d.Trodden folder)
    (h : d.follow aim folder steps = .ended (.ok (.found loc))) :
    loc = landing folder (steps.filterMap Step.component?) ∧
      d.follow aim [] (loc.map .down) = .ended (.ok (.found loc)) := by
  induction steps generalizing folder with
  | nil =>
    simp only [follow, Stretch.ended.injEq, Except.ok.injEq, Arrival.found.injEq] at h
    subst h
    have hdown := follow_straight htrodden aim []
    rw [List.append_nil] at hdown
    exact ⟨rfl, hdown⟩
  | cons step rest ih =>
    cases step with
    | here => exact ih htrodden h
    | slash => exact ih htrodden h
    | up => exact ih (htrodden.initial (List.dropLast_prefix _)) h
    | down n =>
      simp only [follow] at h
      split at h
      · cases h
      · split at h
        · cases h
        · next hname =>
          split at h
          · -- nothing is found where nothing is
            rw [Stretch.ended.injEq, arriveAbsent] at h
            split at h <;> cases h
          · next hnode => exact ih (htrodden.down hnode hname) h
          · next bytes modified mode hnode =>
            split at h
            · next hrest =>
              subst hrest
              simp only [Stretch.ended.injEq, Except.ok.injEq, Arrival.found.injEq] at h
              subst h
              refine ⟨rfl, (follow_straight htrodden aim [n]).trans ?_⟩
              simp [follow, hname, hnode]
            · simp at h
          · next target hnode =>
            have := hfree (folder ++ [n])
            rw [link?, hnode] at this
            cases this

/-! ### The folded path -/

/-- An absolute path is looked up by what it is folded to whenever it is looked up itself. -/
theorem readable_foldDots (h : p.isAbsolute = true) (hreadable : d.Readable p) :
    d.Readable p.foldDots where
  no_nul := by
    have hno := hreadable.no_nul
    rw [Bool.eq_false_iff, ne_eq, List.contains_iff_mem] at hno ⊢
    rw [mem_text_iff (by decide) (by decide)] at hno ⊢
    rintro ⟨n, hn, hnul⟩
    rw [components_foldDots] at hn
    exact hno ⟨n, mem_of_mem_foldComponents hn, hnul⟩
  ne_empty hempty := by
    have habsolute := isAbsolute_foldDots p
    rw [h, isAbsolute, hempty] at habsolute
    cases habsolute
  short := by
    have hpath := utf8ByteSize_pathOf_le (straight p)
    have hstraight : spread (straight p) ≤ _ := spread_landing_le [] _
    have htext := spread_moves_le h
    have hshort := hreadable.short
    rw [spread_nil, Nat.zero_add] at hstraight
    rw [foldDots_eq_pathOf h]
    simp only [longestPath] at hshort ⊢
    omega
  origin := by
    rw [Disk.origin, isAbsolute_foldDots, if_pos h, node?_nil]

/-- On a disk without links the path is found where its text leads to, and so is the folded
path. -/
theorem find_foldDots (hfree : ∀ loc, d.link? loc = none) (h : p.isAbsolute = true)
    (hfind : d.find aim p = .ok (.found loc)) :
    loc = straight p ∧ d.find aim p.foldDots = .ok (.found loc) := by
  obtain ⟨hreadable, hresolve⟩ := find_ok_iff.1 hfind
  -- without links the whole way is one stretch
  obtain ⟨result, hstretch⟩ := exists_follow_ended hfree aim [] p.steps
  have horigin : d.origin p = [] := if_pos h
  rw [horigin, resolve_of_ended hstretch] at hresolve
  subst hresolve
  obtain ⟨hloc, hdown⟩ := follow_names_of_follow hfree trodden_nil hstretch
  refine ⟨hloc, find_ok_iff.2 ⟨readable_foldDots h hreadable, resolve_of_ended ?_⟩⟩
  obtain ⟨hwalked, -, hsteps⟩ := steps_descend (p := ⟨"/"⟩) (by decide)
    fun n hn => isEntryName_of_mem_straight h hn
  rw [Disk.origin, isAbsolute_foldDots, if_pos h, foldDots_eq_pathOf h, pathOf_eq_descend,
    straight, ← hloc]
  rw [straight, ← hloc] at hwalked hsteps
  by_cases hroot : loc = []
  · subst hroot
    rfl
  · rw [hsteps hroot, hwalked]
    exact hdown

/-- On a disk without links messages show an absolute path as it is folded, whether something
stands there or not. -/
theorem describe_eq_foldDots (hfree : ∀ loc, d.link? loc = none) (h : p.isAbsolute = true) :
    d.describe p = p.foldDots.text := by
  rw [describe]
  split
  · next loc node hlook =>
    rw [(find_foldDots hfree h (lookUp_ok_iff.1 hlook).1).1, foldDots_eq_pathOf h]
  · have hne : p.text ≠ "" := by
      intro hempty
      rw [isAbsolute, hempty] at h
      cases h
    rw [if_neg hne, fromRoot, if_pos h, foldDots]

/-- **Folding**: a folded path is folded to itself; it is absolute or relative as the path was,
with names only behind the root of an absolute one and all `..` of a relative one before its
names; and on a disk without links an absolute path and its folded path are looked up to the same
node at the same location. -/
theorem foldDots_normal_and_lookUp (p : Path) :
    p.foldDots.foldDots = p.foldDots ∧
    (p.isAbsolute = true → p.foldDots.isAbsolute = true ∧
      ∃ names : List String, p.foldDots.components = .root :: names.map .name) ∧
    (p.isAbsolute = false → p.foldDots.isAbsolute = false ∧
      ∃ (ups : Nat) (names : List String),
        p.foldDots.components = List.replicate ups .up ++ names.map .name) ∧
    ∀ d : Disk, (∀ loc, d.link? loc = none) → p.isAbsolute = true →
      ∀ aim loc node, d.lookUp aim p = .ok (loc, node) →
        d.lookUp aim p.foldDots = .ok (loc, node) := by
  have hfolded := folded_foldComponents p
  rw [← components_foldDots] at hfolded
  refine ⟨foldDots_foldDots p, fun h => ?_, fun h => ?_, fun d hfree h aim loc node hlook => ?_⟩
  · rw [h] at hfolded
    refine ⟨(isAbsolute_foldDots p).trans h, ?_⟩
    generalize p.foldDots.components = cs at hfolded
    cases hfolded with
    | absolute names => exact ⟨names, rfl⟩
  · rw [h] at hfolded
    refine ⟨(isAbsolute_foldDots p).trans h, ?_⟩
    generalize p.foldDots.components = cs at hfolded
    cases hfolded with
    | relative ups names => exact ⟨ups, names, rfl⟩
  · obtain ⟨hfind, hnode⟩ := lookUp_ok_iff.1 hlook
    exact lookUp_ok_iff.2 ⟨(find_foldDots hfree h hfind).2, hnode⟩

/-- Two paths with detours, one from the root and one from the start, and a disk without links. -/
theorem foldDots_normal_and_lookUp_detours :
    let d : Disk := {
      nodes := [(["p"], .folder), (["p", "lib"], .folder), (["p", "a.rb"], .file "x".toUTF8 1 0o644)]
      start := []
      clock := 2 }
    let p : Path := ⟨"/../p/./lib/..//a.rb"⟩
    let q : Path := ⟨"./../lib/../../a"⟩
    (p.foldDots.foldDots = p.foldDots ∧ p.foldDots.isAbsolute = true) ∧
    (q.foldDots.isAbsolute = false ∧ ∃ (ups : Nat) (names : List String),
      q.foldDots.components = List.replicate ups .up ++ names.map .name) ∧
    d.lookUp .through p.foldDots = .ok (["p", "a.rb"], .file "x".toUTF8 1 0o644) := by
  intro d p q
  have hfree : ∀ loc, d.link? loc = none := link?_eq_none (by simp [d])
  obtain ⟨hagain, habsolute, -, hlookUp⟩ := foldDots_normal_and_lookUp p
  refine ⟨⟨hagain, (habsolute (by decide)).1⟩, ?_, ?_⟩
  · exact (foldDots_normal_and_lookUp q).2.2.1 (by decide)
  · exact hlookUp d hfree (by decide) .through _ _ (by decide +kernel)

end Disk

end GemCourier
