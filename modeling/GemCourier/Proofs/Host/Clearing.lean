/-
GemCourier/Proofs/Host/Clearing.lean

What clearing a directory away leaves of it.

A path that nothing is found at is left alone.  The path of an entry that is a
directory takes it away with all that lies below it, and whatever the clearing
comes to, what does not lie there is as it was.

Main results: `clearAway_absent`, `clearAway_entry`, `node?_clearAway`.
-/
import GemCourier.Proofs.Disk.Moving
import GemCourier.Proofs.Disk.Twins
import GemCourier.Host.Directory

namespace GemCourier

/-- Emptying a location is seen nowhere but below it. -/
theorem Disk.node?_emptied (d : Disk) {loc other : Location} (hother : ¬ loc <+: other) :
    (d.emptied loc).node? other = d.node? other := by
  by_cases hroot : other = []
  · rw [hroot, node?_nil, node?_nil]
  · simp only [node?, emptied, hroot, if_false, List.find?_filter]
    congr 2
    funext entry
    by_cases hentry : entry.1 = other
    · simp [hentry, Bool.eq_false_iff.2 (mt List.isPrefixOf_iff_prefix.1 hother)]
    · simp [hentry]

namespace Directory

open Disk

variable {h : Host} {p : Path} {cs : List Component} {n : String} {loc : Location}

theorem clearAway_absent (hp : h.disk.holds p = false) :
    ((clearAway p).after h).disk = h.disk := by
  simp [clearAway, hp]

/-- A directory is cleared away with all that lies below it. -/
theorem clearAway_entry (henters : h.disk.Enters cs loc) (hp : p.Neat n)
    (hc : p.components = cs ++ [.name n]) (hopen : p.refusal? n = none)
    (hnode : h.disk.node? (loc ++ [n]) = some .folder) :
    ((clearAway p).after h).disk = h.disk.cut (loc ++ [n]) := by
  have hfree : h.disk.link? (loc ++ [n]) = none := by simp [link?, hnode]
  have hholds : h.disk.holds p = true := by
    rw [holds, henters.node_entry hp hc hfree, hopen, hnode]
    rfl
  have hlook : h.disk.lookUp .itself p = .ok (loc ++ [n], .folder) := by
    rw [lookUp, henters.find_entry hp hc hfree]
    simp [hopen, hnode]
  have hlink : h.disk.namesLink p = false := by
    simp [namesLink, henters.folderOf_entry hp hc hopen, hp.lastStep?, hnode, Node.isLink]
  have hremove : h.disk.removeTree p = (none, h.disk.cut (loc ++ [n])) := by
    simp [removeTree, hlook, removalFault?, hp.lastStep?, hlink]
  simp [clearAway, hholds, hremove]

/-- Whatever comes of clearing a path away, what does not lie at its place or below stays. -/
theorem node?_clearAway {place other : Location} (hfree : ∀ loc, h.disk.link? loc = none)
    (hplace : h.disk.Reaches p place) (hother : ¬ place <+: other) :
    ((clearAway p).after h).disk.node? other = h.disk.node? other := by
  have hremoved : (h.disk.removeTree p).2.node? other = h.disk.node? other := by
    rw [removeTree]
    cases hlook : h.disk.lookUp .itself p with
    | error fault => rfl
    | ok entry =>
      obtain ⟨loc, node⟩ := entry
      obtain ⟨hfind, hnode⟩ := lookUp_ok_iff.1 hlook
      rw [find_itself hfree] at hfind
      obtain rfl : loc = place := (reaches_of_find (Or.inl (by simp)) hfind).unique hplace
      cases node with
      | file => rfl
      | link target =>
        have hnone := hfree loc
        rw [link?_eq_some_iff.2 hnode] at hnone
        cases hnone
      | folder =>
        cases hfault : h.disk.removalFault? p with
        | some fault => exact node?_emptied h.disk hother
        | none =>
          show (h.disk.cut loc).node? other = _
          have hne : loc ≠ [] := fun heq => hother (heq ▸ List.nil_prefix)
          rw [node?_cut _ hne, if_neg (mt List.isPrefixOf_iff_prefix.1 hother)]
  cases hholds : h.disk.holds p with
  | false => rw [clearAway_absent hholds]
  | true =>
    rw [← hremoved]
    simp only [clearAway, Act.after_bind, Act.answer_disk, Act.after_disk, hholds]
    cases hcleared : h.disk.removeTree p with
    | mk fault cleared => cases fault <;> rfl

end Directory

end GemCourier
