import TreeWatch.Proofs.FirstSweep
import TreeWatch.Proofs.SecondSweep

/-!
# Full Passes Are Exact

A full pass ends with exactly the snapshot in the record, whatever the record
was before, and a consumer can follow it announcement by announcement.

Nothing a strict pass checks can fail, so a pass that repairs has nothing to
repair and both do the same, down to the report. When the roots differ the
model is replaced, which is the only condition that a pass ever reports.

## Main definitions

* `Store.Agrees`: The record holds exactly what a snapshot shows.

## Theorems

* `Store.agrees_of_links`: Equal roots and links are enough.
* `Pass.run_sweeps`: A pass that keeps the root is one sweep after the other.
* `Pass.run_works`: A pass that keeps the root is a course of acts.
* `Pass.run_spec`: What a pass does, for any step it is part of.
* `Pass.run_exact`: A pass succeeds and leaves exactly the snapshot.
* `Pass.run_followed`: A copy that matches before the pass matches after each
  announcement of it.
-/

namespace TreeWatch

open Forest (Under under_iff_up)

namespace Store

/-- The record and the snapshot have the same root, the same nodes and the same
    links. -/
structure Agrees (s : Store) (t : Snapshot) : Prop where
  root : s.root = t.root
  contains : ∀ h, s.contains h = t.contains h
  children : ∀ h, s.children h = t.children h
  parent : ∀ h, s.parent h = t.parent h

/-- A sound record and a proper snapshot agree as soon as their roots and their
    parent links do. -/
theorem agrees_of_links (s : Store) (t : Snapshot) (hs : s.Sound) (ht : t.Proper)
    (hroot : s.root = t.root) (hup : ∀ h, s.parent h = t.parent h) : s.Agrees t := by
  refine ⟨hroot, fun h => ?_, fun h => ?_, hup⟩
  · rw [Bool.eq_iff_iff, s.contains_iff, ht.contains_iff, Forest.Held, hroot, hup]
  · refine Handle.ascending_ext _ _ (hs.ascending h) (ht.ascending h) fun c => ?_
    rw [hs.tree.mem_kids, ht.tree.mem_kids, hup]

end Store

-- No path in the record is longer than the record is large.
theorem Store.weight_le_size (s : Store) (r : Handle) (hr : s.contains r = true) :
    Forest.weight s.parent r ≤ s.size := by
  rw [← s.length_nodeList]
  refine Forest.weight_le s.root s.parent s.nodeList (fun x hx => ?_) r
    ((s.contains_iff_held r).mp hr)
  exact (s.mem_nodeList x).mpr ((s.contains_iff_held x).mpr hx)

namespace Pass

section Run

variable (live : Snapshot) (hlive : live.Proper) (s : Step) (hs : s.store.Sound)

include hlive hs

/-- After the first sweep every tracked node is live, and nothing but the dead rows
    was removed. -/
theorem first_sweep_fits (r : Handle) (hr : s.store.root = some r) (hlr : live.root = some r) :
    ∃ s', removeDead live s.store.size r s = .ok s' ∧ Works live s s' ∧
      s'.store.root = s.store.root ∧ Fits live s'.store ∧
      Took s s' (deadRows live s.store.children s.store.size r) := by
  have hrt : s.store.contains r = true := (s.store.contains_iff r).mpr (Or.inl hr)
  rcases removeDead_spec live hlive s.store.size r s hs hrt (s.store.weight_le_size r hrt) with
    ⟨s', hrun, hworks, hcut, htook⟩
  refine ⟨s', hrun, hworks, hcut.root,
    ⟨hworks.sound, hcut.root.trans (hr.trans hlr.symm), ?_⟩, htook⟩
  intro x hx
  rcases (hcut.contains_iff x).mp hx with ⟨hsx, hdead⟩
  by_contra hl
  rw [Bool.not_eq_true] at hl
  -- A tracked node that is not live is dead, since the root is live.
  rcases hs.tree.held_under_root x ((s.store.contains_iff_held x).mp hsx) with ⟨r', hr', hu⟩
  rw [hr, Option.some.injEq] at hr'
  refine hdead ⟨x, ?_, hr' ▸ hu, hl, Under.refl x⟩
  rintro rfl
  rw [(hlive.contains_iff x).mpr (Or.inl hlr)] at hl
  exact Bool.false_ne_true hl.symm

omit hs in
-- The second sweep may go from the root to all that is live.
theorem root_weight_le (r : Handle) (hlr : live.root = some r) :
    Forest.weight live.parent r ≤ live.size := by
  have hkeys := Forest.weight_le live.root live.parent live.childLists.keys (fun x hx => by
    rw [Std.ExtTreeMap.mem_keys, Std.ExtTreeMap.mem_iff_contains]
    exact (hlive.contains_iff x).mpr hx) r (Or.inl hlr)
  rw [Std.ExtTreeMap.length_keys] at hkeys
  exact hkeys

omit hs in
-- The root is in place.
theorem Fits.placed_root (r : Handle) (hlr : live.root = some r) (t : Store)
    (hfits : Fits live t) : Placed live t r := by
  intro a ha
  rw [Forest.eq_of_under_top (hlive.tree.root_up r hlr) ha, hlive.tree.root_up r hlr]
  exact hfits.sound.tree.root_up r (hfits.root.trans hlr)

omit hs in
/-- The second sweep from the root makes every link of the record a live
    one. -/
theorem second_sweep_links (r : Handle) (hlr : live.root = some r) (hfits : Fits live s.store) :
    ∃ s', (∀ b, diffNode b live live.size r s = .ok s') ∧ Works live s s' ∧
      s'.store.root = s.store.root ∧ ∀ x, s'.store.parent x = live.parent x := by
  have hrl : live.contains r = true := (hlive.contains_iff r).mpr (Or.inl hlr)
  rcases diffNode_spec live hlive r live.size (root_weight_le live hlive r hlr) s hfits hrl
    (hfits.placed_root live hlive r hlr) with ⟨s', hrun, hworks, hadv, hfin⟩
  refine ⟨s', hrun, hworks, hadv.root, fun x => ?_⟩
  cases hlx : live.contains x with
  | true =>
      rcases hlive.tree.held_under_root x ((hlive.contains_iff x).mp hlx) with ⟨r', hr', hu⟩
      rw [hlr, Option.some.injEq] at hr'
      exact (hfin x (hr' ▸ hu)).1 x (Under.refl x)
  | false =>
      have hfits' := hfits.advance live s.store s'.store hlive r hworks.sound hadv
      have hsx : s'.store.contains x = false := by
        rw [← Bool.not_eq_true]
        intro hx
        rw [hfits'.live x hx] at hlx
        exact Bool.false_ne_true hlx.symm
      rw [((s'.store.not_contains_iff x).mp hsx).2]
      cases hp : live.parent x with
      | none => rfl
      | some p =>
          rw [(hlive.contains_of_parent live x p hp).1] at hlx
          exact absurd hlx.symm Bool.false_ne_true

omit hs in
/-- Replacing the model leaves the root and the links of the snapshot. -/
theorem reset_links : (s.reset live.contains live.root live).store.root = live.root ∧
    ∀ x, (s.reset live.contains live.root live).store.parent x = live.parent x := by
  cases hlr : live.root with
  | none =>
      refine ⟨rfl, fun x => ?_⟩
      rw [hlive.tree.up_of_rootless hlr x]
      exact Store.parent_ofRoot none x
  | some r =>
      have hlinks := (s.reset_spec live.contains r live hlive).2.links live r _ hlive hlr
      exact ⟨hlinks.1.trans hlr, hlinks.2⟩

omit hlive hs in
/-- A pass that changes the root announces that the model is replaced, and then the
    deletions, and the report says so. -/
theorem run_replaced (hroot : s.store.root ≠ live.root) :
    ∃ s' gone, (∀ b, run b live s = .ok s') ∧
      s'.trace = s.trace ++ (replacement s.store s'.store ++ farewell gone s'.store) ∧
      Booked s.report (replacement s.store s'.store ++ farewell gone s'.store) s'.report := by
  rcases s.reset_told live.contains live.root live with ⟨gone, htrace, hbooked⟩
  cases hr : s.store.root with
  | none =>
      refine ⟨s.reset live.contains live.root live, gone, fun b => ?_, htrace, hbooked⟩
      simp only [run, hr, ne_eq, hr ▸ hroot, not_false_eq_true, if_true, Option.isSome_none,
        Bool.false_eq_true, if_false]
  | some r =>
      refine ⟨(s.reset live.contains live.root live).recover (.rootReplaced (some r) live.root),
        gone, fun b => ?_, htrace, hbooked.script, hbooked.removed, hbooked.inserted,
        hbooked.deleted, hbooked.reset, hbooked.gone⟩
      simp only [run, hr, ne_eq, hr ▸ hroot, not_false_eq_true, if_true, Option.isSome_some]

/-- A pass that keeps the root is one sweep after the other, and ends with the links
    of the snapshot, a strict one and one that repairs alike. In between nothing is
    tracked but live nodes. -/
theorem run_sweeps (hroot : s.store.root = live.root) :
    ∃ s₁ s', (∀ b, run b live s = .ok s') ∧ Works live s s₁ ∧ Works live s₁ s' ∧
      Fits live s₁.store ∧
      Took s s₁ (s.store.root.toList.flatMap (deadRows live s.store.children s.store.size)) ∧
      (s'.store.root = live.root ∧ ∀ x, s'.store.parent x = live.parent x) ∧
      (s.store.root = none → s' = s) ∧
      ∀ r, s.store.root = some r → removeDead live s.store.size r s = .ok s₁ ∧
        ∀ b, diffNode b live live.size r s₁ = .ok s' := by
  cases hr : s.store.root with
  | none =>
      -- Nothing is tracked and nothing is live.
      have hup := hs.tree.up_of_rootless hr
      refine ⟨s, s, fun b => ?_, .refl live s hs, .refl live s hs, ⟨hs, hroot, fun x hx => ?_⟩,
        Took.nil s, ⟨hroot, fun x => ?_⟩, fun _ => rfl,
        fun _ hsome => absurd hsome (Option.some_ne_none _).symm⟩
      · simp only [run, ne_eq, hroot, not_true_eq_false, if_false]
        rw [← hroot, hr]
      · rw [s.store.contains_iff, hr, hup x] at hx
        exact absurd hx (by simp only [reduceCtorEq, exists_false, or_self, not_false_eq_true])
      · rw [hup x, hlive.tree.up_of_rootless (hroot.symm.trans hr) x]
  | some r =>
      have hlr := hroot.symm.trans hr
      rcases first_sweep_fits live hlive s hs r hr hlr with
        ⟨s₁, hrun₁, hworks₁, hroot₁, hfits₁, htook₁⟩
      rcases second_sweep_links live hlive s₁ r hlr hfits₁ with
        ⟨s₂, hrun₂, hworks₂, hroot₂, hlinks⟩
      refine ⟨s₁, s₂, fun b => ?_, hworks₁, hworks₂, hfits₁, ?_,
        ⟨hroot₂.trans (hroot₁.trans hroot), hlinks⟩,
        fun hnone => absurd hnone (Option.some_ne_none r), fun r' hr' => ?_⟩
      · simp only [run, ne_eq, hroot, not_true_eq_false, if_false]
        rw [← hroot, hr]
        simp only [hrun₁, bind, Except.bind, hrun₂ b]
      · rw [Option.toList_some, List.flatMap_singleton]
        exact htook₁
      · exact Option.some.inj hr' ▸ ⟨hrun₁, hrun₂⟩

/-- A pass that keeps the root is a course of acts. -/
theorem run_works (hroot : s.store.root = live.root) :
    ∃ s', (∀ b, run b live s = .ok s') ∧ Works live s s' ∧ s'.store.root = live.root ∧
      ∀ x, s'.store.parent x = live.parent x := by
  rcases run_sweeps live hlive s hs hroot with
    ⟨s₁, s', hrun, hworks₁, hworks₂, _, _, ⟨hroot', hlinks⟩, _⟩
  exact ⟨s', hrun, hworks₁.trans live _ _ _ hworks₂, hroot', hlinks⟩

/-- What a pass does within any step: it succeeds, a strict one and one that
    repairs alike, and ends with the links of the snapshot. -/
theorem run_spec : ∃ s', (∀ b, run b live s = .ok s') ∧ s'.store.Sound ∧ s'.store.root = live.root ∧
    (∀ x, s'.store.parent x = live.parent x) ∧
    (∃ trace, s'.trace = s.trace ++ trace ∧ Tells s.store trace s'.store) ∧
    s'.report.resyncRequested = s.report.resyncRequested ∧
    s'.report.recovered = s.report.recovered ++
      if s.store.root ≠ none ∧ s.store.root ≠ live.root then
        [.rootReplaced s.store.root live.root] else [] := by
  by_cases hroot : s.store.root = live.root
  · rcases run_works live hlive s hs hroot with ⟨s', hrun, hworks, hroot', hlinks⟩
    refine ⟨s', hrun, hworks.sound, hroot', hlinks, hworks.edits.tells, hworks.edits.requested, ?_⟩
    rw [if_neg fun h => h.2 hroot, List.append_nil, hworks.edits.recovered]
  · have hedits : Step.Edits s (s.reset live.contains live.root live) := by
      refine s.edits_reset live.contains live.root live ?_
      cases hlr : live.root with
      | none => exact Store.sound_ofRoot none
      | some r => exact (s.reset_spec live.contains r live hlive).1.sound
    rcases reset_links live hlive s with ⟨hroot', hlinks⟩
    cases hr : s.store.root with
    | none =>
        refine ⟨_, fun b => ?_, hedits.sound, hroot', hlinks, hedits.tells, hedits.requested, ?_⟩
        · simp only [run, hr, ne_eq, hr ▸ hroot, not_false_eq_true, if_true, Option.isSome_none,
            Bool.false_eq_true, if_false]
        · simp only [ne_eq, not_true_eq_false, false_and, if_false, List.append_nil]
          exact hedits.recovered
    | some r =>
        refine ⟨(s.reset live.contains live.root live).recover (.rootReplaced (some r) live.root),
          fun b => ?_, hedits.sound, hroot', hlinks, hedits.tells, hedits.requested, ?_⟩
        · simp only [run, hr, ne_eq, hr ▸ hroot, not_false_eq_true, if_true, Option.isSome_some]
        · simp only [ne_eq, reduceCtorEq, not_false_eq_true, hr ▸ hroot, and_self, if_true]
          exact congrArg (· ++ [_]) hedits.recovered

end Run

/-- A pass over a sound record succeeds, whether or not it is strict, and both
    do the same. It leaves a sound record that holds exactly the snapshot, and
    the only condition it reports is that the root was replaced, if there was
    one and it changed. -/
theorem run_exact (s : Store) (hs : s.check = none) (live : Snapshot) (hlive : live.Built) :
    ∃ s', (∀ isStrict, run isStrict live { store := s } = .ok s') ∧ s'.store.check = none ∧
      s'.store.Agrees live ∧
      s'.report.recovered =
        if s.root ≠ none ∧ s.root ≠ live.root then [.rootReplaced s.root live.root] else [] := by
  have hproper := hlive.proper live
  have hsound := s.check_eq_none_iff_sound.mp hs
  rcases run_spec live hproper { store := s } hsound with
    ⟨s', hrun, hsound', hroot, hlinks, _, _, hrec⟩
  refine ⟨s', hrun, s'.store.check_eq_none_iff_sound.mpr hsound', ?_, hrec⟩
  exact s'.store.agrees_of_links live hsound' hproper hroot hlinks

/-- A path of three nodes, one below the other. -/
def threeInARow : Store := ((Store.ofRoot (some ⟨1⟩)).link ⟨1⟩ ⟨2⟩).link ⟨2⟩ ⟨3⟩

-- In the new tree the last two nodes have changed places.
theorem run_exact_of_swapped :
    threeInARow.check = none ∧
      ∃ s', (∀ isStrict, run isStrict (.ofEdges ⟨1⟩ [(⟨1⟩, ⟨3⟩), (⟨3⟩, ⟨2⟩)])
          { store := threeInARow } = .ok s') ∧ s'.store.check = none ∧
        s'.store.Agrees (.ofEdges ⟨1⟩ [(⟨1⟩, ⟨3⟩), (⟨3⟩, ⟨2⟩)]) ∧
        s'.report.recovered =
          if threeInARow.root ≠ none ∧
              threeInARow.root ≠ (Snapshot.ofEdges ⟨1⟩ [(⟨1⟩, ⟨3⟩), (⟨3⟩, ⟨2⟩)]).root then
            [.rootReplaced threeInARow.root (Snapshot.ofEdges ⟨1⟩ [(⟨1⟩, ⟨3⟩), (⟨3⟩, ⟨2⟩)]).root]
          else [] :=
  ⟨by decide +kernel, run_exact threeInARow (by decide +kernel) _ (.ofEdges ⟨1⟩ _)⟩

/-- A copy that matches the record before a pass follows the pass: after each
    announcement it matches the record shown with it, nothing is noted, and in
    the end it matches the record that the pass leaves. -/
theorem run_followed (s : Store) (hs : s.check = none) (live : Snapshot) (hlive : live.Built)
    (isStrict : Bool) (r : Replica) (hr : r.matchesGrid s = true) :
    ∃ s', run isStrict live { store := s } = .ok s' ∧
      (∀ before n after, s'.trace = before ++ n :: after →
        (r.observe (before ++ [n])).mismatches = r.mismatches ∧
          (r.observe (before ++ [n])).matchesGrid n.store = true) ∧
      (r.observe s'.trace).mismatches = r.mismatches ∧
      (r.observe s'.trace).matchesGrid s'.store = true := by
  have hsound := s.check_eq_none_iff_sound.mp hs
  rcases run_spec live (hlive.proper live) { store := s } hsound with
    ⟨s', hrun, _, _, _, ⟨trace, htrace, htells⟩, _, _⟩
  rw [List.nil_append] at htrace
  subst htrace
  rcases htells r hr with ⟨hfollows, hgrid⟩
  exact ⟨s', hrun isStrict, hfollows.at_every r s'.trace, hfollows.mismatches_eq r s'.trace, hgrid⟩

-- A copy made from the old grid follows the same change.
theorem run_followed_of_swapped :
    threeInARow.check = none ∧
      (({} : Replica).rebuild threeInARow).matchesGrid threeInARow = true ∧
      ∃ s', run true (.ofEdges ⟨1⟩ [(⟨1⟩, ⟨3⟩), (⟨3⟩, ⟨2⟩)]) { store := threeInARow } = .ok s' ∧
        (∀ before n after, s'.trace = before ++ n :: after →
          ((({} : Replica).rebuild threeInARow).observe (before ++ [n])).mismatches = [] ∧
            ((({} : Replica).rebuild threeInARow).observe (before ++ [n])).matchesGrid n.store =
              true) ∧
        ((({} : Replica).rebuild threeInARow).observe s'.trace).mismatches = [] ∧
        ((({} : Replica).rebuild threeInARow).observe s'.trace).matchesGrid s'.store = true :=
  ⟨by decide +kernel, by decide +kernel,
    run_followed threeInARow (by decide +kernel) _ (.ofEdges ⟨1⟩ _) true
      (({} : Replica).rebuild threeInARow) (by decide +kernel)⟩

end Pass

end TreeWatch
