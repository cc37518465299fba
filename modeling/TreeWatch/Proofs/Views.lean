import TreeWatch.Proofs.Census
import TreeWatch.Proofs.Lookups
import TreeWatch.Proofs.Upkeep
import TreeWatch.Proofs.Verdicts

/-!
# All Lookups Agree

There are many ways to ask a record about a node. The tables tell whether it is
tracked. A climb along the parents tells whether it is reached from the root, and
a second one, which confirms each parent before the node itself, in which cell it
is shown. Its row is searched in the list of its parent. And two walks list all
that there is, one over the child lists and one over the grid.

In a sound record they all have the same answer. Consumers rely on it when they go
from a node to its cell, from there to the cell of the parent and back down by row
and column (`Store.Places`), and when they compare what they find with the whole
grid.

## Main definitions

* `Store.Places`: The cell in which all lookups find a node.
* `Store.ShowsOneTree`: All lookups tell of the same tree.

## Theorems

* `Store.Sound.isReachable_eq`, `Store.Sound.isSome_rowOf?`: The climb and the search
  find the tracked nodes.
* `Store.Sound.contains_iff_below`: The walk lists the tracked nodes.
* `Store.Sound.places`: Every tracked node has a place.
* `Store.Sound.mem_shape`: The whole grid shows the tracked nodes.
* `Store.lookups_agree`: All of this for a record that passes the check.
-/

namespace TreeWatch

open Forest (Under)

namespace Store

/-- The node is shown in this cell, and every lookup confirms it: its row is found by
    both searches, the cell of its parent is found, and the row and the column lead
    back from there. The root has no cell above its own. -/
structure Places (s : Store) (h : Handle) (i : Index) : Prop where
  found : s.indexForNode h = some i
  node : i.node = h
  column : i.column = 0
  row : s.rowOf? h = some i.row
  top : s.root = some h → s.parentIndex i = none
  under : ∀ p, s.parent h = some p → Handle.bisect (s.children p) h = some i.row ∧
    ∃ j, s.indexForNode p = some j ∧ s.parentIndex i = some j
  shown : s.index i.row 0 (s.parentIndex i) = some i
  inside : i.row < s.rowCount (s.parentIndex i)

/-- All lookups tell of the same tree: which nodes there are, where each of them is,
    what the whole grid shows, and how many nodes there are. The grid shows no node
    twice. -/
structure ShowsOneTree (s : Store) : Prop where
  reached : ∀ h, s.isReachable h = s.contains h
  rowed : ∀ h, (s.rowOf? h).isSome = s.contains h
  celled : ∀ h, (s.indexForNode h).isSome = s.contains h
  below : ∀ h, s.contains h = true ↔ ∃ r, s.root = some r ∧ (h = r ∨ h ∈ s.descendants r)
  placed : ∀ h, s.contains h = true → ∃ i, s.Places h i
  grid : ∀ h kids, (h, kids) ∈ s.shape.toList ↔ s.contains h = true ∧ kids = s.children h
  once : (s.shape.toList.map Prod.fst).Nodup
  counted : s.size = {h | s.contains h = true}.ncard

section Sound

variable (s : Store) (hs : s.Sound)

include hs

/-- The parents lead from a node to the root exactly if it is tracked. -/
theorem Sound.isReachable_eq (h : Handle) : s.isReachable h = s.contains h := by
  rw [Bool.eq_iff_iff]
  refine ⟨fun hreach => ?_, s.isReachable_of_sound hs h⟩
  rw [isReachable] at hreach
  cases hr : s.root with
  | none =>
      rw [hr] at hreach
      exact absurd hreach Bool.false_ne_true
  | some r =>
      rw [hr] at hreach
      exact (s.contains_iff_held h).mpr
        (Forest.held_of_above s.root s.parent h r (s.under_of_climbs r _ h hreach) (Or.inl hr))

/-- A node has a row exactly if it is tracked. -/
theorem Sound.isSome_rowOf? (h : Handle) : (s.rowOf? h).isSome = s.contains h := by
  cases hh : s.contains h with
  | true =>
      rcases Step.rowOf?_of_contains s hs h hh with ⟨row, hrow⟩
      rw [hrow]
      rfl
  | false =>
      rcases (s.not_contains_iff h).mp hh with ⟨hroot, hp⟩
      rw [rowOf?, if_neg hroot, hp]
      rfl

/-- The root and what is listed below it are the tracked nodes. -/
theorem Sound.contains_iff_below (h : Handle) :
    s.contains h = true ↔ ∃ r, s.root = some r ∧ (h = r ∨ h ∈ s.descendants r) := by
  rw [contains_iff_held]
  constructor
  · intro hheld
    rcases hs.tree.held_under_root h hheld with ⟨r, hr, hu⟩
    exact ⟨r, hr, List.mem_cons.mp ((hs.mem_subtree s r h).mpr hu)⟩
  · rintro ⟨r, hr, hbelow⟩
    exact Forest.held_of_above s.root s.parent h r
      ((hs.mem_subtree s r h).mp (List.mem_cons.mpr hbelow)) (Or.inl hr)

/-- The root is in the only cell of the top level. -/
theorem Sound.places_root (r : Handle) (hr : s.root = some r) : s.Places r (Index.ofRow 0 r) := by
  have hrow : s.rowOf? r = some 0 := by rw [rowOf?, if_pos hr]
  have hp : s.parent r = none := hs.tree.root_up r hr
  have habove : s.parentIndex (Index.ofRow 0 r) = none := by
    rw [parentIndex, show (Index.ofRow 0 r).node = r from rfl, hp, Option.bind_none]
  refine ⟨?_, rfl, rfl, hrow, fun _ => habove, fun p hrp => ?_, ?_, ?_⟩
  · rw [hs.indexForNode_eq, (s.contains_iff r).mpr (Or.inl hr), if_pos rfl, hrow, Option.map_some]
  · exact absurd (hp.symm.trans hrp) (Option.some_ne_none p).symm
  · rw [habove]
    simp only [index, columnCount, Nat.reduceLeDiff, if_false, Index.ofRow, if_true, hr,
      Option.map_some]
  · rw [habove, rowCount, hr]
    exact Nat.one_pos

/-- Any other tracked node is in the first cell of its row, under the cell of its
    parent. -/
theorem Sound.places_child (h p : Handle) (hp : s.parent h = some p) :
    ∃ i, s.Places h i := by
  have hh : s.contains h = true := (s.contains_iff h).mpr (Or.inr ⟨p, hp⟩)
  have hroot : s.root ≠ some h := hs.tree.root_ne h p hp
  rcases Step.rowOf?_of_contains s hs h hh with ⟨row, hrow⟩
  have hidx : (s.children p).idxOf? h = some row := by
    rw [rowOf?, if_neg hroot, hp, Option.bind_some] at hrow
    exact hrow
  have hget : (s.children p)[row]? = some h :=
    (Handle.idxOf?_eq_some_iff_of_nodup _ (hs.tree.nodup p) h row).mp hidx
  -- The parent is tracked as well, so it has a cell.
  have hpt := (s.contains_iff_held p).mpr (hs.tree.held_up h p hp)
  rcases Option.isSome_iff_exists.mp ((hs.indexForNode_isSome s p).trans hpt) with ⟨j, hj⟩
  rcases hs.indexForNode_spec s p j hj with ⟨hnode, hcolumn⟩
  have habove : s.parentIndex (Index.ofRow row h) = some j := by
    rw [parentIndex, show (Index.ofRow row h).node = h from rfl, hp, Option.bind_some, hj]
  refine ⟨Index.ofRow row h, ?_, rfl, rfl, hrow, fun hr => absurd hr hroot, fun q hq => ?_, ?_, ?_⟩
  · rw [hs.indexForNode_eq, hh, if_pos rfl, hrow, Option.map_some]
  · rw [hp, Option.some.injEq] at hq
    subst hq
    exact ⟨(Handle.searches_bisect _ h (hs.ascending p)).trans hidx, j, hj, habove⟩
  · rw [habove]
    simp only [index, columnCount, Nat.reduceLeDiff, if_false, Index.ofRow, hnode, hget,
      Option.map_some]
  · rw [habove]
    simp only [rowCount, hcolumn, ne_eq, not_true_eq_false, if_false, hnode]
    exact (List.getElem?_eq_some_iff.mp hget).1

theorem Sound.places (h : Handle) (hh : s.contains h = true) : ∃ i, s.Places h i := by
  rcases (s.contains_iff h).mp hh with hr | ⟨p, hp⟩
  · exact ⟨_, hs.places_root s h hr⟩
  · exact hs.places_child s h p hp

/-- The whole grid shows the tracked nodes, each with its children. -/
theorem Sound.mem_shape (h : Handle) (kids : List Handle) :
    (h, kids) ∈ s.shape.toList ↔ s.contains h = true ∧ kids = s.children h := by
  rw [Std.ExtTreeMap.mem_toList_iff_getElem?_eq_some, hs.shape_get]
  by_cases hh : s.contains h = true
  · rw [if_pos hh, Option.some.injEq, eq_comm]
    exact (and_iff_right hh).symm
  · rw [if_neg hh]
    exact iff_of_false (Option.some_ne_none kids).symm fun h => hh h.1

end Sound

/-- All lookups in a record that passes the check tell of one tree. -/
theorem lookups_agree (s : Store) (hs : s.check = none) : s.ShowsOneTree := by
  have hsound := s.check_eq_none_iff_sound.mp hs
  refine ⟨hsound.isReachable_eq s, hsound.isSome_rowOf? s, hsound.indexForNode_isSome s,
    hsound.contains_iff_below s, hsound.places s, hsound.mem_shape s, ?_, hsound.size_eq s⟩
  rw [Std.ExtTreeMap.map_fst_toList_eq_keys]
  exact Std.ExtTreeMap.nodup_keys

-- Two branches of different depth.
theorem lookups_agree_of_branches :
    Pass.childOfTheSecond.check = none ∧ Pass.childOfTheSecond.ShowsOneTree :=
  ⟨by decide +kernel, lookups_agree Pass.childOfTheSecond (by decide +kernel)⟩

end Store

end TreeWatch
