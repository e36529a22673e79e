/-
GemCourier/Proofs/Sync/Mapping.lean

Where any path goes, listed or not.

A placement can be given any source sets, with a library that need not lie below
the root, and any path.  Read as a list of components, the path either goes on
from the library or it does not, and what comes behind the library or the root
decides whether it has a destination and which.  The spelling of the path, of
the sets and of the storage does not matter.

A destination keeps what came behind the library or the root, and the buckets
are told apart by their names, so the destination tells the path it came from.

Main result: `destination?_spec`.
-/
import GemCourier.Proofs.Sync.Destinations

namespace GemCourier.Sync.Placement

variable {m : Placement} {source q : Path} {cs : List Component} {n : String}

/-! ### Below the library -/

theorem destination?_library {library : Path} (hsome : m.sets.library = some library)
    (hsource : source.components = library.components ++ cs) :
    (cs ≠ [] ∧ cs.all Component.isName = true →
      ∃ q, m.destination? source = some q ∧ q.components = m.buckets.lib.components ++ cs) ∧
    (¬ (cs ≠ [] ∧ cs.all Component.isName = true) → m.destination? source = none) := by
  have hinitial : library.components <+: source.components := ⟨cs, hsource.symm⟩
  have hsome' : source.relativeTo? library ≠ none :=
    fun hnone => Path.relativeTo?_eq_none.1 hnone hinitial
  obtain ⟨r, hr⟩ := Option.ne_none_iff_exists'.1 hsome'
  have hcomponents : r.components = cs :=
    List.append_cancel_left ((Path.components_relativeTo? hr).symm.trans hsource)
  have hdestination : m.destination? source = inLibrary? m.buckets r := by
    simp [destination?, hsome, hr]
  rw [hdestination, inLibrary?, hcomponents]
  refine ⟨fun h => ⟨m.buckets.lib.join r, if_pos h, ?_⟩, fun h => if_neg h⟩
  have hjoinable : r.Joinable := by
    refine Path.joinable_of_components fun c hc => ?_
    rw [hcomponents] at hc
    have hname := List.all_eq_true.1 h.2 c (List.mem_of_mem_head? hc)
    refine ⟨?_, ?_⟩ <;> rintro rfl <;> cases hname
  rw [Path.components_join_relative hjoinable, hcomponents]

/-! ### Elsewhere -/

theorem destination?_elsewhere
    (h : ∀ library, m.sets.library = some library → ¬ library.components <+: source.components) :
    m.destination? source = m.inHome? source := by
  have hnone : m.sets.library.bind source.relativeTo? = none := by
    cases hsome : m.sets.library with
    | none => rfl
    | some library => exact Path.relativeTo?_eq_none.2 (h library hsome)
  simp [destination?, hnone]

theorem inHome?_of_components (hsource : source.components = m.sets.root.components ++ [.name n]) :
    ∃ q, m.inHome? source = some q ∧ q.components = m.buckets.home.components ++ [.name n] := by
  obtain ⟨outer, houter, hcomponents⟩ := Path.exists_parent?_of_name hsource
  have hname : source.fileName? = some n := by
    rw [Path.fileName?, hsource, List.getLast?_concat]
  have hentry : IsEntryName n := (Path.canonical_components source).names n (by simp [hsource])
  refine ⟨m.buckets.home.child n, ?_, Path.components_child hentry⟩
  simp [inHome?, houter, Path.sameAs, hcomponents, hname]

theorem exists_of_inHome? (h : m.inHome? source = some q) :
    ∃ n, source.components = m.sets.root.components ++ [.name n] ∧
      q.components = m.buckets.home.components ++ [.name n] := by
  have hfound := h
  rw [inHome?] at h
  split at h
  · next hparent =>
    obtain ⟨outer, houter, hsame⟩ := (Option.any_eq_true _ _).1 hparent
    obtain ⟨n, hname, -⟩ := Option.map_eq_some_iff.1 h
    have hlast : source.components.getLast? = some (.name n) := by
      rw [Path.fileName?] at hname
      split at hname
      · next last hlast => rw [hlast, Option.some.inj hname]
      · cases hname
    -- the parent has the components but the last, and the last one is a name
    have hsource : source.components = m.sets.root.components ++ [.name n] := by
      obtain ⟨front, hfront⟩ := List.getLast?_eq_some_iff.1 hlast
      have hcomponents := Path.components_parent? houter
      rw [hfront, List.dropLast_concat] at hcomponents
      have hroot : outer.components = m.sets.root.components := by simpa [Path.sameAs] using hsame
      rw [hfront, ← hcomponents, hroot]
    obtain ⟨q', hq', hcomponents⟩ := inHome?_of_components hsource
    obtain rfl : q' = q := Option.some.inj (hq'.symm.trans hfound)
    exact ⟨n, hsource, hcomponents⟩
  · cases h

/-! ### Destinations tell their sources -/

/-- What has a destination lies below the library or right under the root, and its destination
keeps what comes behind. -/
theorem exists_of_destination? (h : m.destination? source = some q) :
    (∃ library, ∃ names : List String, m.sets.library = some library ∧ names ≠ [] ∧
      source.components = library.components ++ names.map .name ∧
      q.components = m.buckets.lib.components ++ names.map .name) ∨
    ∃ n, source.components = m.sets.root.components ++ [.name n] ∧
      q.components = m.buckets.home.components ++ [.name n] := by
  by_cases hbelow : ∃ library, m.sets.library = some library ∧
      library.components <+: source.components
  · obtain ⟨library, hsome, cs, hcs⟩ := hbelow
    obtain ⟨hplaced, hnone⟩ := destination?_library hsome hcs.symm
    by_cases hnames : cs ≠ [] ∧ cs.all Component.isName = true
    · obtain ⟨q', hq', hcomponents⟩ := hplaced hnames
      obtain rfl : q' = q := Option.some.inj (hq'.symm.trans h)
      obtain ⟨names, rfl⟩ := Component.all_isName_iff.1 hnames.2
      exact Or.inl ⟨library, names, hsome, by simpa using hnames.1, hcs.symm, hcomponents⟩
    · rw [hnone hnames] at h
      cases h
  · push Not at hbelow
    rw [destination?_elsewhere hbelow] at h
    exact Or.inr (exists_of_inHome? h)

/-- The destination tells the source, on a storage where the buckets are different, for all
placements of one root and one library. -/
theorem components_eq_of_destinations {m' : Placement} {storage source' q' : Path}
    (hbuckets : m.buckets = Buckets.on storage) (hbuckets' : m'.buckets = Buckets.on storage)
    (hroot : m.sets.root = m'.sets.root)
    (hlibrary : ∀ l l', m.sets.library = some l → m'.sets.library = some l' → l = l')
    (hq : m.destination? source = some q) (hq' : m'.destination? source' = some q')
    (h : q.components = q'.components) : source.components = source'.components := by
  have hhome := components_home storage
  have hlib := components_lib storage
  rcases exists_of_destination? hq with
    ⟨library, names, hsome, _, hsource, hcomponents⟩ | ⟨n, hsource, hcomponents⟩
  · rw [hbuckets, hlib] at hcomponents
    rcases exists_of_destination? hq' with
      ⟨library', names', hsome', _, hsource', hcomponents'⟩ | ⟨n', hsource', hcomponents'⟩
    · obtain rfl := hlibrary library library' hsome hsome'
      rw [hbuckets', hlib] at hcomponents'
      rw [hcomponents, hcomponents', List.append_cancel_left_eq] at h
      rw [hsource, hsource', h]
    · rw [hbuckets', hhome] at hcomponents'
      rw [hcomponents, hcomponents'] at h
      simp at h
  · rw [hbuckets, hhome] at hcomponents
    rcases exists_of_destination? hq' with
      ⟨library', names', hsome', _, hsource', hcomponents'⟩ | ⟨n', hsource', hcomponents'⟩
    · rw [hbuckets', hlib] at hcomponents'
      rw [hcomponents, hcomponents'] at h
      simp at h
    · rw [hbuckets', hhome] at hcomponents'
      rw [hcomponents, hcomponents', List.append_cancel_left_eq] at h
      rw [hsource, hsource', hroot, h]

/-- The destination tells the source, on a storage where the buckets are different. -/
theorem components_eq_of_destination? {storage source' q' : Path}
    (hbuckets : m.buckets = Buckets.on storage) (hq : m.destination? source = some q)
    (hq' : m.destination? source' = some q') (h : q.components = q'.components) :
    source.components = source'.components :=
  components_eq_of_destinations hbuckets hbuckets rfl
    (fun _ _ hl hl' => Option.some.inj (hl.symm.trans hl')) hq hq' h

/-- With the buckets of a storage, a path that goes on from the library by at least one
component, all of them names, goes on from the `lib` bucket by the same ones, and other paths at
or below the library go nowhere.  Elsewhere a path that goes on from the root by one name goes
on from the `home` bucket by it, and all others go nowhere.  So a destination lies below its
bucket by names, and different paths go to different destinations. -/
theorem destination?_spec (sets : SourceSets) (storage source : Path) :
    let m : Placement := ⟨sets, Buckets.on storage⟩
    (∀ library rel, sets.library = some library → source.components = library.components ++ rel →
      (rel = [] ∨ (∃ c ∈ rel, c.isName = false) → m.destination? source = none) ∧
      (rel ≠ [] → (∀ c ∈ rel, c.isName = true) → ∃ q, m.destination? source = some q ∧
        q.components = storage.components ++ .name "lib" :: rel)) ∧
    ((∀ library, sets.library = some library → ¬ library.components <+: source.components) →
      (∀ n, source.components = sets.root.components ++ [.name n] →
        ∃ q, m.destination? source = some q ∧
          q.components = storage.components ++ [.name "home", .name n]) ∧
      ((∀ n, source.components ≠ sets.root.components ++ [.name n]) →
        m.destination? source = none)) ∧
    (∀ q, m.destination? source = some q → ∃ names : List String, names ≠ [] ∧
      (q.components = m.buckets.home.components ++ names.map .name ∨
        q.components = m.buckets.lib.components ++ names.map .name)) ∧
    ∀ source' q q', m.destination? source = some q → m.destination? source' = some q' →
      q.components = q'.components → source.components = source'.components := by
  intro m
  have hhome : m.buckets.home.components = storage.components ++ [.name "home"] :=
    components_home storage
  have hlib : m.buckets.lib.components = storage.components ++ [.name "lib"] :=
    components_lib storage
  refine ⟨?_, ?_, ?_, ?_⟩
  · intro library rel hsome hsource
    obtain ⟨hplaced, hnone⟩ := destination?_library (m := m) hsome hsource
    refine ⟨fun hrel => hnone ?_, fun hne hnames => ?_⟩
    · rintro ⟨hne, hnames⟩
      rcases hrel with hnil | ⟨c, hc, hother⟩
      · exact hne hnil
      · rw [List.all_eq_true.1 hnames c hc] at hother
        cases hother
    · obtain ⟨q, hq, hcomponents⟩ := hplaced ⟨hne, List.all_eq_true.2 hnames⟩
      exact ⟨q, hq, by rw [hcomponents, hlib, List.append_assoc]; rfl⟩
  · intro helsewhere
    rw [destination?_elsewhere helsewhere]
    refine ⟨fun n hsource => ?_, fun hother => ?_⟩
    · obtain ⟨q, hq, hcomponents⟩ := inHome?_of_components (m := m) hsource
      exact ⟨q, hq, by rw [hcomponents, hhome, List.append_assoc]; rfl⟩
    · refine Option.eq_none_iff_forall_ne_some.2 fun q hq => ?_
      obtain ⟨n, hsource, -⟩ := exists_of_inHome? hq
      exact hother n hsource
  · intro q hq
    rcases exists_of_destination? hq with
      ⟨library, names, -, hne, -, hcomponents⟩ | ⟨n, -, hcomponents⟩
    · exact ⟨names, hne, Or.inr hcomponents⟩
    · exact ⟨[n], by simp, Or.inl hcomponents⟩
  · intro source' q q' hq hq' h
    exact components_eq_of_destination? rfl hq hq' h

/-- A path that goes up behind the library does not get out of the bucket. -/
example :
    let sets : SourceSets := ⟨⟨"/p"⟩, some ⟨"/p/lib"⟩⟩
    destination? ⟨sets, Buckets.on ⟨"/s"⟩⟩ ⟨"/p/lib/../b.rb"⟩ = none := by
  decide

end GemCourier.Sync.Placement
