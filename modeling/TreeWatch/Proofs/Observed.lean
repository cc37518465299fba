import TreeWatch.Proofs.Handling
import TreeWatch.Proofs.SceneTree

/-!
# Scenes as Sources

A sound scene answers as a source without contradiction: its snapshot has its
root and its links, and what it captures below a node is what lies under this
node. So what the notifications do to a record can be said in terms of the
links of the scene alone.

A record that is kept along with a scene has a root that is dead or the root
of the scene. This is all it takes to rule out a tangle, and to see that what
is put in below an entering node has the links of the scene.

## Main definitions

* `Scene.Mirrored`: A record has the root and the links of a scene.
* `Scene.Blends`: Each link of a record is one it had before or one of the
  scene.

## Theorems

* `Scene.Sound.snapshot_links`, `Scene.Sound.contains_snapshot`,
  `Scene.Sound.subtree_links`: What a scene captures.
* `Scene.Sound.planted_links`: What is put in below an entering node.
* `Scene.Sound.not_tangles`: No task meets a tangle.
* `Scene.Sound.blends_handled`: A task leaves links of before and of the scene.
-/

namespace TreeWatch

open Forest (Under under_iff_up)

namespace Scene

/-- The record has the root and the links of the scene. -/
structure Mirrored (s : Scene) (t : Store) : Prop where
  root : t.root = s.root
  up : ∀ x, t.parent x = s.parent x

/-- The root of `t'` and each of its links was there in `t` or is there in the
    scene. -/
structure Blends (s : Scene) (t t' : Store) : Prop where
  root : ∀ r, t'.root = some r → t.root = some r ∨ s.root = some r
  up : ∀ h p, t'.parent h = some p → t.parent h = some p ∨ s.parent h = some p

theorem Mirrored.blends (s : Scene) (t t' : Store) (h : s.Mirrored t') : s.Blends t t' :=
  ⟨fun _ hr => Or.inr (h.root ▸ hr), fun x _ hp => Or.inr (h.up x ▸ hp)⟩

theorem Blends.refl (s : Scene) (t : Store) : s.Blends t t :=
  ⟨fun _ hr => Or.inl hr, fun _ _ hp => Or.inl hp⟩

-- A cut only takes links away.
theorem Blends.of_cut (s : Scene) (t m t' : Store) (gone : Handle → Prop)
    (hcut : t.Cuts m gone) (h : s.Blends m t') : s.Blends t t' := by
  refine ⟨fun r hr => (h.root r hr).imp_left fun hm => hcut.root ▸ hm, fun x p hp => ?_⟩
  exact (h.up x p hp).imp_left fun hm => (hcut.links.up_of_up x p hm).1

section Captured

variable (s : Scene) (n : Nat) (hs : s.Sound n)

include hs

/-- The snapshot of a scene has its root and its links. -/
theorem Sound.snapshot_links :
    s.source.snapshot.root = s.root ∧ ∀ x, s.source.snapshot.parent x = s.parent x := by
  cases hr : s.root with
  | none =>
      have hempty : s.source.snapshot = Snapshot.empty := by
        unfold Source.snapshot source
        rw [hr]
      rw [hempty]
      refine ⟨rfl, fun x => ?_⟩
      rw [hs.tree.up_of_rootless hr x]
      simp only [Snapshot.empty, Snapshot.parent, Std.ExtTreeMap.getElem?_empty]
  | some r =>
      have hcapture : s.source.snapshot = Snapshot.capture s.children r := by
        unfold Source.snapshot source
        rw [hr]
      have hcap := Snapshot.captures_capture s.children r
      rcases hcap.parent_eq s.parent s.children s.root hs.tree r _ with ⟨hcontains, hparent⟩
      rw [hcapture]
      refine ⟨hcap.root_eq, fun x => ?_⟩
      rw [hparent]
      cases hp : s.parent x with
      | none => exact ite_self none
      | some p =>
          -- Whatever has a parent lies under the root and is not the root.
          rcases hs.tree.rooted x p hp with ⟨r', hr', hu⟩
          rw [hr, Option.some.injEq] at hr'
          refine if_pos ⟨?_, (hcontains x).mpr (hr' ▸ hu)⟩
          rintro rfl
          exact hs.tree.root_ne x p hp hr

/-- The snapshot of a scene has its live nodes. -/
theorem Sound.contains_snapshot (h : Handle) : s.source.snapshot.contains h = s.contains h := by
  rcases hs.snapshot_links s n with ⟨hroot, hlinks⟩
  rw [Bool.eq_iff_iff, s.source.proper_snapshot.contains_iff, hs.live, hroot]
  refine or_congr_right (exists_congr fun p => ?_)
  rw [hlinks]

/-- What a scene captures below a live node is what lies under it. -/
theorem Sound.subtree_links (top : Handle) (htop : s.contains top = true) :
    (∀ x, x ∈ (s.source.subtree top).descendants top ↔ x ≠ top ∧ Under s.parent x top) ∧
      ∀ x, x ≠ top → Under s.parent x top → (s.source.subtree top).parent x = s.parent x := by
  have hcapture : s.source.subtree top = Snapshot.capture s.children top := if_pos htop
  have hcap := Snapshot.captures_capture s.children top
  rcases hcap.parent_eq s.parent s.children s.root hs.tree top _ with ⟨hcontains, hparent⟩
  have hlinks : ∀ x, x ≠ top → Under s.parent x top →
      (s.source.subtree top).parent x = s.parent x := by
    intro x hx hu
    rw [hcapture, hparent, if_pos ⟨hx, (hcontains x).mpr hu⟩]
  refine ⟨fun x => ?_, hlinks⟩
  rw [hcapture, hcap.proper.mem_descendants_iff_ne, ← hcontains]
  refine and_congr_right fun _ => ⟨fun hu => ?_, fun hx => ?_⟩
  · exact (hcap.proper.contains_iff x).mpr
      (Forest.held_of_above _ _ x top hu (Or.inl hcap.root_eq))
  · rcases hcap.proper.tree.held_under_root x ((hcap.proper.contains_iff x).mp hx) with
      ⟨r, hr, hu⟩
    rw [hcap.root_eq, Option.some.injEq] at hr
    subst hr
    exact hu

/-- A record that was filled from the root of a scene mirrors it. -/
theorem Sound.mirrored_of_filled (top : Handle) (t : Store) (hr : s.root = some top)
    (hf : Store.Filled (s.source.subtree top) (Store.ofRoot (some top))
      ((s.source.subtree top).descendants top) t) : s.Mirrored t := by
  have htop : s.contains top = true := (hs.live top).mpr (Or.inl hr)
  have hsame : s.source.subtree top = s.source.snapshot := by
    unfold Source.subtree Source.snapshot source
    rw [hr]
    exact if_pos htop
  rcases hs.snapshot_links s n with ⟨hroot, hlinks⟩
  rw [hsame] at hf
  rcases hf.links _ top t s.source.proper_snapshot (hroot.trans hr) with ⟨htroot, htlinks⟩
  exact ⟨htroot.trans hroot, fun x => (htlinks x).trans (hlinks x)⟩

/-- A record that mirrors a scene agrees with its snapshot. -/
theorem Sound.agrees_of_mirrored (t : Store) (ht : t.Sound) (h : s.Mirrored t) :
    t.Agrees s.source.snapshot := by
  rcases hs.snapshot_links s n with ⟨hroot, hlinks⟩
  exact t.agrees_of_links _ ht s.source.proper_snapshot (h.root.trans hroot.symm) fun x =>
    (h.up x).trans (hlinks x).symm

end Captured

section Followed

variable (s : Scene) (n : Nat) (hs : s.Sound n) (t : Store)
  (hroot : ∀ r, t.root = some r → s.contains r = true → s.root = some r)

include hs hroot

/-- Below an entering node the eviction leaves nothing, since the root of the
    record is not there: it is dead or the root of the scene. -/
theorem Sound.cleared (top : Handle) (m : Store) (htop : s.contains top = true)
    (hnew : t.contains top = false)
    (hcut : t.Cuts m (Step.Evicted t ((s.source.subtree top).descendants top))) (x : Handle)
    (hx : Under s.parent x top) : m.contains x = false := by
  by_cases hxt : x = top
  · exact (hcut.not_contains_iff x).mpr (Or.inl (hxt ▸ hnew))
  · have hxd := ((hs.subtree_links s n top htop).1 x).mpr ⟨hxt, hx⟩
    rw [Store.not_contains_iff]
    refine ⟨fun hr => ?_, Step.parent_of_evicted { store := t } m _ hcut x hxd⟩
    have hlive := (hs.live x).mpr
      (Forest.held_of_above _ _ x top hx ((hs.live top).mp htop))
    have hsr := hroot x (hcut.root ▸ hr) hlive
    exact hxt (Forest.eq_of_under_top (hs.tree.root_up x hsr) hx).symm

/-- What is put in below an entering node has the links of the scene, and the
    links elsewhere stay. -/
theorem Sound.planted_links (parent top : Handle) (m t' : Store) (htop : s.contains top = true)
    (hnew : t.contains top = false) (hup : s.parent top = some parent)
    (hcut : t.Cuts m (Step.Evicted t ((s.source.subtree top).descendants top)))
    (hpl : Store.Planted (s.source.subtree top) parent m [top] t') :
    (∀ x, t'.contains x = true ↔ m.contains x = true ∨ Under s.parent x top) ∧
      (∀ x, Under s.parent x top → t'.parent x = s.parent x) ∧
      ∀ x, ¬ Under s.parent x top → t'.parent x = m.parent x := by
  have hclear := hs.cleared s n t hroot top m htop hnew hcut
  rcases hs.subtree_links s n top htop with ⟨hdesc, hlinks⟩
  have hcontains : ∀ x, t'.contains x = true ↔ m.contains x = true ∨ Under s.parent x top := by
    intro x
    rw [hpl.contains_iff]
    simp only [List.mem_singleton, exists_eq_left, hdesc]
    refine or_congr_right ⟨fun h => h.elim (fun he => he ▸ Under.refl x) fun h => h.2, fun h => ?_⟩
    by_cases hx : x = top
    · exact Or.inl hx
    · exact Or.inr ⟨hx, h⟩
  refine ⟨hcontains, fun x hx => ?_, fun x hx => ?_⟩
  · have hxm := hclear x hx
    by_cases hxt : x = top
    · rw [hpl.top x (List.mem_singleton.mpr hxt) hxm, hxt, hup]
    · rw [hpl.below top (List.mem_singleton_self top) x ((hdesc x).mpr ⟨hxt, hx⟩) hxm
        (mt List.mem_singleton.mp hxt), hlinks x hxt hx]
  · cases hxm : m.contains x with
    | true => exact hpl.old x hxm
    | false =>
        have hxt : t'.contains x = false := by
          rw [← Bool.not_eq_true, hcontains, hxm]
          simp only [Bool.false_eq_true, hx, or_self, not_false_eq_true]
        rw [((t'.not_contains_iff x).mp hxt).2, ((m.not_contains_iff x).mp hxm).2]

omit hroot in
/-- Where the climb from a live node ends. -/
theorem Sound.climb_under (node parent top : Handle) (hnode : t.contains node = false)
    (hlive : s.contains node = true)
    (hclimb : PointEdit.climb t s.source node (PointEdit.maxChain - 1) node = .under parent top) :
    s.contains top = true ∧ t.contains top = false ∧ s.parent top = some parent ∧
      Under s.parent node top := by
  rcases PointEdit.climb_under t s.source node _ node parent top hnode hclimb with
    ⟨_, htop, hup, hu⟩
  refine ⟨?_, htop, hup, hu⟩
  exact (hs.live top).mpr (hs.tree.held_of_under node top ((hs.live node).mp hlive) hu)

/-- A node that enters does not tangle the record. -/
theorem Sound.not_tangled (node : Handle) : ¬ PointEdit.Tangled s.source t node := by
  rintro ⟨hnode, hlive, parent, top, r, hclimb, hr, hrd, _, _⟩
  rcases hs.climb_under s n t node parent top hnode hlive hclimb with ⟨htop, _, _, _⟩
  rcases ((hs.subtree_links s n top htop).1 r).mp hrd with ⟨hne, hu⟩
  have hrlive := (hs.live r).mpr (Forest.held_of_above _ _ r top hu ((hs.live top).mp htop))
  have hsr := hroot r hr hrlive
  exact hne (Forest.eq_of_under_top (hs.tree.root_up r hsr) hu).symm

/-- No task meets a tangle. -/
theorem Sound.not_tangles (ht : t.Sound) (task : Task) : ¬ task.Tangles s.source t := by
  cases task with
  | entered node => exact hs.not_tangled s n t hroot node
  | reparented node =>
      rw [Task.Tangles]
      by_cases hnode : t.contains node = true
      · rw [if_pos hnode]
        rintro ⟨hne, _, htangled⟩
        have hcut := ht.cuts_remove t node hne
        exact hs.not_tangled s n _ (fun r hr => hroot r (hcut.root ▸ hr)) node htangled
      · rw [if_neg hnode]
        exact hs.not_tangled s n t hroot node
  | left node => exact not_false
  | attributes node kinds => exact not_false
  | cycleCompleted => exact not_false
  | resync => exact not_false

/-- A node that enters leaves links of before and of the scene. -/
theorem Sound.blends_enters (node : Handle) (t' : Store) (asks : Bool)
    (h : PointEdit.Enters s.source node t t' asks) : s.Blends t t' := by
  cases h with
  | stale h => exact Blends.refl s t
  | lost => exact Blends.refl s t
  | stray top hnode hlive hclimb hother => exact Blends.refl s t
  | adopted top t' hempty hsroot hfilled =>
      exact (hs.mirrored_of_filled s n top t' hsroot hfilled).blends s t t'
  | barren parent top hnode hlive hclimb hdead => exact Blends.refl s t
  | displaced top t' hcut => exact (Blends.refl s t').of_cut s t t' t' _ hcut
  | planted parent top m t' hclimb hnode hlive hcut hparent hplanted =>
      rcases hs.climb_under s n t node parent top hnode hlive hclimb with ⟨htop, hnew, hup, _⟩
      rcases hs.planted_links s n t hroot parent top m t' htop hnew hup hcut hplanted with
        ⟨_, hunder, hother⟩
      refine Blends.of_cut s t m t' _ hcut
        ⟨fun r hr => Or.inl (hplanted.root ▸ hr), fun x p hp => ?_⟩
      by_cases hx : Under s.parent x top
      · exact Or.inr ((hunder x hx).symm.trans hp)
      · exact Or.inl ((hother x hx).symm.trans hp)

omit hs hroot in
-- A node that leaves only takes links away.
theorem blends_leaves (node : Handle) (t' : Store) (h : PointEdit.Leaves node t t') :
    s.Blends t t' := by
  cases h with
  | untracked h => exact Blends.refl s t
  | root h =>
      refine ⟨fun r hr => ?_, fun x p hp => ?_⟩
      · exact absurd hr (by simp only [Store.empty, reduceCtorEq, not_false_eq_true])
      · exact absurd ((Store.parent_ofRoot none x).symm.trans hp)
          (by simp only [reduceCtorEq, not_false_eq_true])
  | cut t' hne hcut => exact (Blends.refl s t').of_cut s t t' t' _ hcut

/-- A task leaves links of before and of the scene. -/
theorem Sound.blends_handled (task : Task) (t' : Store) (asks : Bool)
    (h : Handled s.source t task t' asks) : s.Blends t t' := by
  cases h with
  | entered node t' asks h => exact hs.blends_enters s n t hroot node t' asks h
  | left node t' h => exact s.blends_leaves t node t' h
  | attributes node kinds => exact Blends.refl s t
  | reparented node t' asks h =>
      cases h with
      | entered t' asks hnode h => exact hs.blends_enters s n t hroot node t' asks h
      | left t' hdead h => exact s.blends_leaves t node t' h
      | unmoved hnode h => exact Blends.refl s t
      | root => exact Blends.refl s t
      | moved m t' asks hlive hne hcut h =>
          refine Blends.of_cut s t m t' _ hcut ?_
          exact hs.blends_enters s n m (fun r hr => hroot r (hcut.root ▸ hr)) node t' asks h

end Followed

end Scene

end TreeWatch
