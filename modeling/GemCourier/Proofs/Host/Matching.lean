/-
GemCourier/Proofs/Host/Matching.lean

Steps on two hosts that cannot be told apart along some ways.

Two related disks are blind to the paths of which some are clear: by a clear
path the same kind of node is found on both, and making a directory leaves
related disks or fails alike.  Then a step that makes directories along a clear
path answers the same on both hosts, and their disks stay related.

Disks that are alike off a place are blind to the paths that keep off it, and
disks with the same kinds of nodes but at some places to the paths that avoid
these.

Main results: `Blind.ensureParent`, `ensureParent_twins`, `blind_alikeBut`.
-/
import GemCourier.Proofs.Disk.Kinds
import GemCourier.Proofs.Disk.Twins
import GemCourier.Proofs.Host.Ensuring

namespace GemCourier

open Disk

variable {place : Location} {places : Location → Prop} {related : Disk → Disk → Prop}
  {clear : Disk → Path → Prop} {h k : Host} {p : Path}

/-- Changes of which the same comes are answered in the same way. -/
theorem Act.change_matches {f g : Disk → Except Fault Disk} (hrelated : related h.disk k.disk)
    (hmatches : Matches related (f h.disk) (g k.disk)) :
    (change g).answer k = (change f).answer h ∧
      related ((change f).after h).disk ((change g).after k).disk := by
  cases hf : f h.disk with
  | ok d =>
    cases hg : g k.disk with
    | ok d' =>
      rw [hf, hg] at hmatches
      cases hmatches with
      | ok hchanged =>
        obtain ⟨hanswer, hafter⟩ := change_ok hf
        obtain ⟨hanswer', hafter'⟩ := change_ok hg
        rw [hanswer, hanswer', hafter, hafter']
        exact ⟨rfl, hchanged⟩
    | error fault =>
      rw [hf, hg] at hmatches
      cases hmatches
  | error fault =>
    cases hg : g k.disk with
    | ok d' =>
      rw [hf, hg] at hmatches
      cases hmatches
    | error fault' =>
      rw [hf, hg] at hmatches
      cases hmatches
      obtain ⟨hanswer, hafter⟩ := change_error hf
      obtain ⟨hanswer', hafter'⟩ := change_error hg
      rw [hanswer, hanswer', hafter, hafter']
      exact ⟨rfl, hrelated⟩

/-- Related disks cannot be told apart by looking up a clear path or making a directory there.  A
path stays clear as the disk grows, and so is each part of it. -/
structure Blind (related : Disk → Disk → Prop) (clear : Disk → Path → Prop) : Prop where
  grows : ∀ {d e p}, d.Grows e → clear d p → clear e p
  initial : ∀ {d p q}, p.components <+: q.components → p.components ≠ [] → clear d q → clear d p
  node : ∀ {d d' p}, related d d' → clear d p →
    (d'.node p).map Node.kind = (d.node p).map Node.kind
  makeFolder : ∀ {d d' p}, related d d' → clear d p →
    Matches related (d.makeFolder p) (d'.makeFolder p)

namespace Blind

open Directory

variable {q : Path} {cs : List Component}

theorem create (hblind : Blind related clear) (hrelated : related h.disk k.disk)
    (hclear : clear h.disk p) :
    (create p).answer k = (create p).answer h ∧
      related ((create p).after h).disk ((create p).after k).disk := by
  obtain ⟨hanswer, hafter⟩ := Act.change_matches (f := (·.makeFolder p)) (g := (·.makeFolder p))
    hrelated (hblind.makeFolder hrelated hclear)
  cases hmade : (Act.change (·.makeFolder p)).answer h with
  | ok _ =>
    rw [hmade] at hanswer
    simp only [Directory.create, Act.answer_bind, Act.after_bind, hmade, hanswer]
    exact ⟨rfl, hafter⟩
  | error fault =>
    rw [hmade] at hanswer
    simp only [Directory.create, Act.answer_bind, Act.after_bind, hmade, hanswer]
    exact ⟨rfl, hafter⟩

theorem ensureOne (hblind : Blind related clear) (hrelated : related h.disk k.disk)
    (hclear : clear h.disk p) :
    (ensureOne p).answer k = (ensureOne p).answer h ∧
      related ((ensureOne p).after h).disk ((ensureOne p).after k).disk := by
  have hkind := hblind.node hrelated hclear
  obtain ⟨hcreate, hcreated⟩ := hblind.create hrelated hclear
  cases hfound : h.disk.node p with
  | ok node =>
    cases hfound' : k.disk.node p with
    | ok node' =>
      rw [hfound, hfound'] at hkind
      have hsame : node'.kind = node.kind := Except.ok.inj hkind
      cases node <;> cases node' <;> cases hsame <;>
        simp [Directory.ensureOne, hfound, hfound', hrelated]
    | error fault =>
      rw [hfound, hfound'] at hkind
      cases hkind
  | error fault =>
    cases hfound' : k.disk.node p with
    | ok node' =>
      rw [hfound, hfound'] at hkind
      cases hkind
    | error fault' =>
      rw [hfound, hfound'] at hkind
      obtain rfl : fault' = fault := Except.error.inj hkind
      by_cases hmissing : fault' = .notFound
      · subst hmissing
        simp [Directory.ensureOne, hfound, hfound', hcreate, hcreated]
      · cases fault' <;>
          first | exact absurd rfl hmissing | simp [Directory.ensureOne, hfound, hfound', hrelated]

theorem ensureFrom (hblind : Blind related clear) (front : List Component) (made : Nat)
    (hcs : front ++ cs <+: q.components) (hrelated : related h.disk k.disk)
    (hclear : clear h.disk q) :
    (ensureFrom (Path.ofComponents front) made cs).answer k =
        (ensureFrom (Path.ofComponents front) made cs).answer h ∧
      related ((ensureFrom (Path.ofComponents front) made cs).after h).disk
        ((ensureFrom (Path.ofComponents front) made cs).after k).disk := by
  induction cs generalizing front made h k with
  | nil => exact ⟨rfl, hrelated⟩
  | cons c rest ih =>
    rw [List.append_cons] at hcs
    have hinitial : front ++ [c] <+: q.components := (List.prefix_append _ _).trans hcs
    rw [Directory.ensureFrom, ← Path.ofComponents_concat]
    by_cases hgiven : isGiven c = true
    · simp only [hgiven, if_true]
      exact ih _ made hcs hrelated hclear
    · have hpart : (Path.ofComponents (front ++ [c])).components = front ++ [c] :=
        Path.components_ofComponents ((Path.canonical_components q).initial hinitial)
      obtain ⟨hanswer, hafter⟩ := hblind.ensureOne hrelated
        (hblind.initial (hpart ▸ hinitial) (by simp [hpart]) hclear)
      simp only [hgiven, Bool.false_eq_true, if_false, Act.answer_bind, Act.after_bind, hanswer]
      cases (Directory.ensureOne (Path.ofComponents (front ++ [c]))).answer h with
      | error e => exact ⟨rfl, hafter⟩
      | ok n => exact ih _ (made + n) hcs hafter (hblind.grows (grows_ensureOne _ h) hclear)

/-- Directories along a clear path are made sure of on both hosts alike. -/
theorem ensureParent (hblind : Blind related clear) (hrelated : related h.disk k.disk)
    (hq : p.components.dropLast <+: q.components) (hclear : clear h.disk q) :
    (ensureParent p).answer k = (ensureParent p).answer h ∧
      related ((ensureParent p).after h).disk ((ensureParent p).after k).disk := by
  unfold Directory.ensureParent
  split
  · exact ⟨rfl, hrelated⟩
  · next parent hparent =>
    rw [← Path.components_parent? hparent] at hq
    obtain ⟨hanswer, hafter⟩ := hblind.ensureFrom [] 0 hq hrelated hclear
    refine ⟨?_, hafter⟩
    simp only [Act.answer_bind, Act.answer_pure]
    exact congrArg _ hanswer

end Blind

/-! ### Disks that are alike off a place -/

theorem Disk.Matched.matches {a b : Except Fault Disk} (h : Matched place a b) :
    Matches (Twins place) a b := by
  cases h with
  | ok htwins => exact .ok htwins
  | error fault => exact .error fault

theorem Node.kind_of_untimed {node node' : Node} (h : node'.untimed = node.untimed) :
    node'.kind = node.kind := by
  cases node <;> cases node' <;> cases h <;> rfl

theorem blind_twins (place : Location) :
    Blind (Twins place) fun d p => Off place d.start p.components where
  grows hgrows hoff := hgrows.start ▸ hoff
  initial hp _ hoff := hoff.initial hp
  node {d d' p} htwins hoff := by
    have hnode := htwins.node hoff
    cases hfound : d.node p <;> cases hfound' : d'.node p <;> rw [hfound, hfound'] at hnode
    · exact congrArg Except.error (Except.error.inj hnode)
    · cases hnode
    · cases hnode
    · exact congrArg Except.ok (Node.kind_of_untimed (Except.ok.inj hnode))
  makeFolder htwins hoff := (htwins.makeFolder hoff).matches

theorem Act.change_twins {f : Disk → Except Fault Disk} (htwins : Twins place h.disk k.disk)
    (hmatched : Matched place (f h.disk) (f k.disk)) :
    (change f).answer k = (change f).answer h ∧
      Twins place ((change f).after h).disk ((change f).after k).disk :=
  change_matches htwins hmatched.matches

/-- Directories on a way that keeps off the place are made sure of on both hosts alike. -/
theorem Directory.ensureParent_twins (htwins : Twins place h.disk k.disk)
    (hoff : Off place h.disk.start p.components.dropLast) :
    (ensureParent p).answer k = (ensureParent p).answer h ∧
      Twins place ((ensureParent p).after h).disk ((ensureParent p).after k).disk := by
  have hcs := Path.components_ofComponents
    ((Path.canonical_components p).initial (List.dropLast_prefix _))
  rw [← hcs] at hoff
  exact (blind_twins place).ensureParent htwins (by rw [hcs]) hoff

/-! ### Disks with the same kinds of nodes but at some places -/

theorem blind_alikeBut (places : Location → Prop) :
    Blind (AlikeBut places) fun d p => d.Avoids p places where
  grows := Avoids.grows
  initial := Avoids.initial
  node := AlikeBut.node
  makeFolder := AlikeBut.makeFolder

end GemCourier
