/-
GemCourier/Proofs/Disk/WellFormed.lean

What every disk is like.

The nodes of a disk stand at different locations, each in a directory, under
names that entries can have.  Making a directory and writing a file keep this,
since a way only ever goes from directory to directory, and so it is so
throughout every run.  What a directory holds is then listed without
repetition, and the listed names are exactly those under which something
stands.

Main results: `mem_namesBelow`, `nodup_namesBelow`, `Does.wellFormed`.
-/
import GemCourier.Proofs.Disk.Deeds

namespace GemCourier.Disk

/-- The nodes stand at different locations, below directories, under names of entries. -/
structure WellFormed (d : Disk) : Prop where
  distinct : (d.nodes.map (·.1)).Nodup
  names : ∀ entry ∈ d.nodes, ∀ n ∈ entry.1, IsEntryName n
  parents : ∀ loc n, d.node? (loc ++ [n]) ≠ none → d.node? loc = some .folder
  start : ∀ n ∈ d.start, IsEntryName n

variable {d d' : Disk} {loc dest folder : Location} {n : String} {p : Path} {aim : Aim}

/-! ### Nodes and their locations -/

theorem mem_nodes_of_node? {node : Node} (hloc : loc ≠ []) (h : d.node? loc = some node) :
    (loc, node) ∈ d.nodes := by
  rw [node?, if_neg hloc, Option.map_eq_some_iff] at h
  obtain ⟨entry, hfind, rfl⟩ := h
  have hentry : entry.1 = loc := by simpa using List.find?_some hfind
  have hmem := List.mem_of_find?_eq_some hfind
  rwa [← hentry]

theorem node?_ne_none_iff (hloc : loc ≠ []) :
    d.node? loc ≠ none ↔ ∃ entry ∈ d.nodes, entry.1 = loc := by
  constructor
  · intro h
    obtain ⟨node, hnode⟩ := Option.ne_none_iff_exists'.1 h
    exact ⟨_, mem_nodes_of_node? hloc hnode, rfl⟩
  · rintro ⟨entry, hmem, rfl⟩ hnone
    rw [node?, if_neg hloc, Option.map_eq_none_iff, List.find?_eq_none] at hnone
    exact hnone entry hmem (by simp)

theorem WellFormed.isEntryName (h : d.WellFormed) (hnode : d.node? loc ≠ none) :
    ∀ n ∈ loc, IsEntryName n := by
  by_cases hloc : loc = []
  · simp [hloc]
  · obtain ⟨entry, hmem, rfl⟩ := (node?_ne_none_iff hloc).1 hnode
    exact h.names entry hmem

/-- It is enough to look at the entries of a disk to tell that it is well formed. -/
theorem wellFormed_iff : d.WellFormed ↔
    (d.nodes.map (·.1)).Nodup ∧ (∀ entry ∈ d.nodes, ∀ n ∈ entry.1, IsEntryName n) ∧
      (∀ entry ∈ d.nodes, d.node? entry.1.dropLast = some .folder) ∧
      ∀ n ∈ d.start, IsEntryName n := by
  constructor
  · intro h
    refine ⟨h.distinct, h.names, fun entry hentry => ?_, h.start⟩
    rcases List.eq_nil_or_concat entry.1 with hroot | ⟨loc, n, hloc⟩
    · -- the root is a directory without having an entry
      rw [hroot]
      exact node?_nil d
    · rw [List.concat_eq_append] at hloc
      rw [hloc, List.dropLast_concat]
      exact h.parents loc n ((node?_ne_none_iff (by simp)).2 ⟨entry, hentry, hloc⟩)
  · rintro ⟨hdistinct, hnames, hparents, hstart⟩
    refine ⟨hdistinct, hnames, fun loc n hnode => ?_, hstart⟩
    obtain ⟨entry, hentry, hloc⟩ := (node?_ne_none_iff (by simp)).1 hnode
    have hparent := hparents entry hentry
    rwa [hloc, List.dropLast_concat] at hparent

instance (d : Disk) : Decidable d.WellFormed := decidable_of_iff _ wellFormed_iff.symm

/-- A disk without entries that are links has no links. -/
theorem link?_eq_none (h : ∀ entry ∈ d.nodes, ∀ target, entry.2 ≠ .link target)
    (loc : Location) : d.link? loc = none := by
  rw [Option.eq_none_iff_forall_ne_some]
  intro target hlink
  have hnode := link?_eq_some_iff.1 hlink
  by_cases hloc : loc = []
  · rw [hloc, node?_nil] at hnode
    cases hnode
  · exact h _ (mem_nodes_of_node? hloc hnode) target rfl

/-! ### Listings -/

/-- The names listed in a directory are those under which something stands. -/
theorem mem_namesBelow : n ∈ d.namesBelow loc ↔ d.node? (loc ++ [n]) ≠ none := by
  rw [node?_ne_none_iff (by simp), namesBelow, List.mem_mergeSort, List.mem_filterMap]
  refine exists_congr fun entry => and_congr_right fun _ => ?_
  constructor
  · intro h
    split at h
    · next hlast =>
      rw [← List.dropLast_append_getLast? n h, hlast]
    · cases h
  · intro h
    simp [h]

theorem nodup_namesBelow (h : d.WellFormed) (loc : Location) : (d.namesBelow loc).Nodup := by
  rw [namesBelow, List.Perm.nodup_iff (List.mergeSort_perm _ _)]
  have hdistinct : d.nodes.Pairwise fun e f => e.1 ≠ f.1 := List.pairwise_map.1 h.distinct
  refine List.Pairwise.filterMap _ ?_ hdistinct
  -- below one location the last name tells the whole location
  intro e f hne n hn m hm hnm
  split at hn
  · next hlast =>
    split at hm
    · next hlast' =>
      refine hne ?_
      rw [← List.dropLast_append_getLast? n hn, ← List.dropLast_append_getLast? m hm, hlast, hlast',
        hnm]
    · cases hm
  · cases hn

/-! ### Ways go from directory to directory -/

theorem WellFormed.folder_dropLast (h : d.WellFormed) (hfolder : d.node? folder = some .folder) :
    d.node? folder.dropLast = some .folder := by
  rcases List.eq_nil_or_concat folder with rfl | ⟨outer, n, rfl⟩
  · exact node?_nil d
  · rw [List.concat_eq_append, List.dropLast_concat]
    refine h.parents outer n ?_
    rw [← List.concat_eq_append, hfolder]
    simp

/-- What is absent at the end of a stretch would stand in a directory. -/
theorem folder_of_follow_absent (hd : d.WellFormed) {steps : List Step}
    (hfolder : d.node? folder = some .folder)
    (h : d.follow aim folder steps = .ended (.ok (.absent loc))) :
    ∃ outer n, loc = outer ++ [n] ∧ d.node? outer = some .folder := by
  induction steps generalizing folder with
  | nil => simp [follow] at h
  | cons step rest ih =>
    cases step with
    | here => exact ih hfolder h
    | slash => exact ih hfolder h
    | up => exact ih (hd.folder_dropLast hfolder) h
    | down n =>
      simp only [follow] at h
      split at h
      · cases h
      · split at h
        · cases h
        · split at h
          · obtain ⟨harrival, _⟩ := location_of_arriveAbsent (by simpa using h)
            cases harrival
            exact ⟨folder, n, rfl, hfolder⟩
          · next hnode => exact ih hnode h
          · split at h <;> cases h
          · split at h <;> cases h

/-- A link at the end of a stretch stands in a directory. -/
theorem folder_of_follow_link (hd : d.WellFormed) {steps rest : List Step} {target : Path}
    {folder' : Location} (hfolder : d.node? folder = some .folder)
    (h : d.follow aim folder steps = .link folder' target rest) :
    d.node? folder' = some .folder := by
  induction steps generalizing folder with
  | nil => simp [follow] at h
  | cons step steps ih =>
    cases step with
    | here => exact ih hfolder h
    | slash => exact ih hfolder h
    | up => exact ih (hd.folder_dropLast hfolder) h
    | down n =>
      simp only [follow] at h
      split at h
      · cases h
      · split at h
        · cases h
        · split at h
          · cases h
          · next hnode => exact ih hnode h
          · cases h
          · split at h
            · cases h
            · cases h
              exact hfolder

theorem folder_of_resolve_absent (hd : d.WellFormed) {links : Nat} {steps : List Step}
    (hfolder : d.node? folder = some .folder)
    (h : d.resolve aim links folder steps = .ok (.absent loc)) :
    ∃ outer n, loc = outer ++ [n] ∧ d.node? outer = some .folder := by
  rw [resolve_ok_iff] at h
  induction h with
  | ended hfollow => exact folder_of_follow_absent hd hfolder hfollow
  | link hfollow _ ih =>
    refine ih ?_
    split
    · exact node?_nil d
    · exact folder_of_follow_link hd hfolder hfollow

/-- Where a path is absent, the directory it would stand in is there. -/
theorem folder_of_find_absent (hd : d.WellFormed) (h : d.find aim p = .ok (.absent loc)) :
    ∃ outer n, loc = outer ++ [n] ∧ d.node? outer = some .folder := by
  obtain ⟨hreadable, hresolve⟩ := find_ok_iff.1 h
  exact folder_of_resolve_absent hd hreadable.origin hresolve

/-- A path leads along names of entries. -/
theorem Leads.isEntryName {cs : List Component} (h : d.Leads loc cs dest)
    (hloc : ∀ n ∈ loc, IsEntryName n) (hcs : ∀ n, .name n ∈ cs → IsEntryName n) :
    ∀ n ∈ dest, IsEntryName n := by
  have hpush : ∀ {loc : Location} {m : String}, (∀ n ∈ loc, IsEntryName n) → IsEntryName m →
      ∀ n ∈ loc ++ [m], IsEntryName n := by
    intro loc m hloc hm n hn
    rcases List.mem_append.1 hn with hn | hn
    · exact hloc n hn
    · rwa [List.mem_singleton.1 hn]
  induction h with
  | done loc => exact hloc
  | root _ ih => exact ih (by simp) fun n hn => hcs n (by simp [hn])
  | here _ ih => exact ih hloc fun n hn => hcs n (by simp [hn])
  | up _ ih =>
    exact ih (fun n hn => hloc n (List.mem_of_mem_dropLast hn)) fun n hn => hcs n (by simp [hn])
  | name _ _ ih => exact ih (hpush hloc (hcs _ (by simp))) fun n hn => hcs n (by simp [hn])
  | @link loc m target rest dest _ _ ih =>
    -- targets of links are paths, whose names are names of entries
    refine ih hloc fun n hn => ?_
    rcases List.mem_append.1 hn with hn | hn
    · exact (Path.canonical_components ⟨target⟩).names n hn
    · exact hcs n (by simp [hn])

theorem WellFormed.isEntryName_of_reaches (hd : d.WellFormed) (h : d.Reaches p dest) :
    ∀ n ∈ dest, IsEntryName n :=
  Leads.isEntryName h hd.start (Path.canonical_components p).names

/-! ### Deeds keep disks well formed -/

/-- A node put into a directory, where nothing else than a directory has anything below it. -/
theorem WellFormed.put (hd : d.WellFormed) (node : Node) (hfolder : d.node? folder = some .folder)
    (hnames : ∀ m ∈ folder ++ [n], IsEntryName m)
    (hbelow : node = .folder ∨ ∀ m, d.node? (folder ++ [n] ++ [m]) = none) :
    (d.put (folder ++ [n]) node).WellFormed where
  -- the new node takes the place of what stood at its location
  distinct := by
    show ((folder ++ [n]) :: (d.nodes.filter _).map (·.1)).Nodup
    rw [List.nodup_cons]
    refine ⟨?_, hd.distinct.sublist (List.filter_sublist.map _)⟩
    simp
  names := by
    intro entry hentry
    rcases List.mem_cons.1 hentry with rfl | hentry
    · exact hnames
    · exact hd.names entry (List.mem_of_mem_filter hentry)
  parents := by
    intro loc m
    rw [node?_put d (by simp), node?_put d (by simp)]
    intro hnode
    by_cases hloc : loc = folder ++ [n]
    · subst hloc
      rw [if_pos rfl]
      rcases hbelow with rfl | hnone
      · rfl
      · rw [if_neg (by simp), hnone m] at hnode
        exact absurd rfl hnode
    · rw [if_neg hloc]
      by_cases hm : loc ++ [m] = folder ++ [n]
      · rw [(List.append_inj' hm rfl).1]
        exact hfolder
      · rw [if_neg hm] at hnode
        exact hd.parents loc m hnode
  start := hd.start

/-- Nothing stands below what is no directory. -/
theorem WellFormed.node?_below (hd : d.WellFormed) (h : d.node? loc ≠ some .folder) (m : String) :
    d.node? (loc ++ [m]) = none :=
  Classical.byContradiction fun hnode => h (hd.parents loc m hnode)

theorem run_wellFormed (hd : d.WellFormed) {deed : Deed} (h : deed.run d = .ok d') :
    d'.WellFormed := by
  cases deed with
  | made p =>
    obtain ⟨loc, hfind, rfl⟩ := makeFolder_eq_ok.1 h
    obtain ⟨outer, n, rfl, houter⟩ := folder_of_find_absent hd hfind
    have hreaches := reaches_of_find (Or.inr ⟨_, rfl⟩) hfind
    exact hd.put .folder houter (hd.isEntryName_of_reaches hreaches) (Or.inl rfl)
  | wrote p bytes =>
    rcases writeFile_eq_ok.1 h with ⟨loc, hfind, rfl⟩ | ⟨loc, b, t, mode, hfind, hnode, rfl⟩
    · obtain ⟨outer, n, rfl, houter⟩ := folder_of_find_absent hd hfind
      have hreaches := reaches_of_find (Or.inr ⟨_, rfl⟩) hfind
      have hnone := node?_of_find_absent hfind
      have hput := hd.put (.file bytes d.clock newFileMode) houter
        (hd.isEntryName_of_reaches hreaches)
        (Or.inr fun m => hd.node?_below (by rw [hnone]; simp) m)
      exact ⟨hput.distinct, hput.names, hput.parents, hput.start⟩
    · rcases List.eq_nil_or_concat loc with rfl | ⟨outer, n, rfl⟩
      · rw [node?_nil] at hnode; cases hnode
      · rw [List.concat_eq_append] at hnode
        have houter := hd.parents outer n (by rw [hnode]; simp)
        have hput := hd.put (.file bytes d.clock mode) houter
          (hd.isEntryName (by rw [hnode]; simp))
          (Or.inr fun m => hd.node?_below (by rw [hnode]; simp) m)
        rw [List.concat_eq_append]
        exact ⟨hput.distinct, hput.names, hput.parents, hput.start⟩

theorem Does.wellFormed {deeds : List Deed} (h : d.Does deeds d') (hd : d.WellFormed) :
    d'.WellFormed := by
  induction h with
  | nothing d => exact hd
  | deed hrun _ ih => exact ih (run_wellFormed hd hrun)

end GemCourier.Disk
