import TreeWatch.Proofs.Mutation
import TreeWatch.Store.Grid

/-!
# What a Consumer Sees of a Record

The grid is all that a consumer sees, and the whole grid is the table `shape`:
the tracked nodes with their children. For a sound record that table is known
without walking the grid.

The walk over the grid is a walk over the child lists from the last entry to
the first. In which order the nodes come is of no importance for a table, only
that each comes once. That makes the walk as short as the record is large, so
its bound is never reached.

The record between the two halves of a move is not sound, but what can be
reached from its root is a sound record without the moved subtree, and nothing
else is visible.

## Theorems

* `Store.map_rowsUnder`: The rows under a cell are the children of its node.
* `Store.survey_of_walk`: What a walk over the grid notes.
* `Store.Sound.surveyFrom_get`: The part of the grid below a tracked node.
* `Store.Sound.shape_get`: The shape of a sound record.
* `Store.Sound.outside_detach`, `Store.Sound.shape_detach`: A record with a
  subtree taken out.
-/

namespace TreeWatch

open Forest (Under under_iff_up)

namespace Store

theorem filterMap_range_get (list : List Handle) (f : Nat → Handle → Index) :
    (List.range list.length).filterMap (fun row => list[row]?.map (f row)) = list.mapIdx f := by
  induction list generalizing f with
  | nil => rfl
  | cons x xs ih =>
      rw [List.length_cons, List.range_succ_eq_map, List.filterMap_cons, List.filterMap_map]
      simp only [List.getElem?_cons_zero, Option.map_some, List.mapIdx_cons]
      exact congrArg _ (ih fun row => f (row + 1))

theorem rowsUnder_eq (s : Store) (i : Index) (hi : i.column = 0) :
    s.rowsUnder i = (s.children i.node).mapIdx fun row => (⟨row, 0, ·⟩) := by
  rw [← filterMap_range_get, rowsUnder, rowCount]
  simp only [hi, ne_eq, not_true_eq_false, if_false, index, columnCount, Nat.reduceLeDiff]

/-- The rows under a cell show the children of its node, and they are cells
    that have rows under them. -/
theorem map_rowsUnder (s : Store) (i : Index) (hi : i.column = 0) :
    (s.rowsUnder i).map Index.node = s.children i.node ∧ ∀ j ∈ s.rowsUnder i, j.column = 0 := by
  rw [rowsUnder_eq s i hi]
  refine ⟨?_, fun j hj => ?_⟩
  · rw [List.mapIdx_eq_zipIdx_map, List.map_map]
    exact List.zipIdx_map_fst 0 _
  · rcases List.mem_mapIdx.mp hj with ⟨row, hrow, rfl⟩
    rfl

/-- A walk over the grid notes the children of each node it visits. The nodes
    below a cell are put on the stack from the last to the first, so it is the
    walk over the reversed child lists. -/
theorem survey_of_walk (s : Store) (nodes out : List Handle)
    (hw : Forest.Walk (fun h => (s.children h).reverse) nodes out) :
    ∀ (bound : Nat) (stack : List Index) (seen : HandleMap (List Handle)),
      stack.map Index.node = nodes → (∀ i ∈ stack, i.column = 0) → out.length ≤ bound →
      ∀ x, (s.survey bound stack seen)[x]? =
        if x ∈ out then some (s.children x) else seen[x]? := by
  induction hw with
  | done =>
      intro bound stack seen hstack _ _ x
      rw [List.map_eq_nil_iff.mp hstack]
      cases bound <;> simp only [survey, List.not_mem_nil, if_false]
  | visit h rest out _ ih =>
      intro bound stack seen hstack hcol hb x
      rcases List.map_eq_cons_iff.mp hstack with ⟨i, stack, rfl, rfl, rfl⟩
      rw [List.length_cons] at hb
      cases bound with
      | zero => omega
      | succ n =>
          rcases s.map_rowsUnder i (hcol i List.mem_cons_self) with ⟨hrows, hrowcol⟩
          have hrec := ih n ((s.rowsUnder i).reverse ++ stack)
            (seen.insert i.node (s.children i.node))
            (by rw [List.map_append, List.map_reverse, hrows]) (fun j hj => ?_) (by omega) x
          · rw [survey, hrows, hrec, HandleMap.get_insert]
            by_cases hx : x ∈ out
            · simp only [hx, if_true, List.mem_cons, or_true]
            · by_cases hxi : i.node = x
              · simp only [hxi, if_true, List.mem_cons, true_or, ite_self]
              · simp only [hx, hxi, Ne.symm hxi, if_false, List.mem_cons, or_self]
          · rcases List.mem_append.mp hj with hj | hj
            · exact hrowcol j (List.mem_reverse.mp hj)
            · exact hcol j (List.mem_cons_of_mem i hj)

/-- A walk from the top of the grid whose nodes are tracked is as short as the
    record is large, so the walk over the grid is not cut short. -/
theorem shape_of_walk (s : Store) (r : Handle) (hr : s.root = some r) (out : List Handle)
    (hw : Forest.Walk (fun h => (s.children h).reverse) [r] out) (hnd : out.Nodup)
    (hout : ∀ x ∈ out, s.contains x = true) (x : Handle) :
    s.shape[x]? = if x ∈ out then some (s.children x) else none := by
  have hlen : out.length ≤ s.parents.size + 1 := by
    have hsub :=
      (List.subperm_of_subset hnd fun x hx => (s.mem_nodeList x).mpr (hout x hx)).length_le
    rw [length_nodeList, size, hr, Option.isSome_some, if_pos rfl] at hsub
    exact hsub
  have htop : s.index 0 0 none = some ⟨0, 0, r⟩ := by
    simp only [index, columnCount, Nat.reduceLeDiff, if_false, if_true, hr, Option.map_some]
  rw [shape, htop]
  simp only [surveyFrom]
  rw [s.survey_of_walk [r] out hw _ [⟨0, 0, r⟩] ∅ rfl (by simp only [List.mem_singleton, forall_eq])
    hlen, Std.ExtTreeMap.getElem?_empty]

theorem shape_of_rootless (s : Store) (hr : s.root = none) : s.shape = ∅ := by
  have htop : s.index 0 0 none = none := by
    simp only [index, columnCount, Nat.reduceLeDiff, if_false, if_true, hr, Option.map_none]
  rw [shape, htop]

section Sound

variable (s : Store) (hs : s.Sound)

include hs

/-- What lies under a node in a sound record, as a walk over the grid. -/
theorem Sound.exists_grid_walk (h : Handle) (hh : s.contains h = true) :
    ∃ out, Forest.Walk (fun h => (s.children h).reverse) [h] out ∧ out.Nodup ∧
      (∀ x, x ∈ out ↔ Under s.parent x h) ∧ ∀ x ∈ out, s.contains x = true := by
  have ht := hs.tree.reverse
  rcases ht.exists_walk [h] with ⟨out, hw⟩
  have hmem : ∀ x, x ∈ out ↔ Under s.parent x h := by
    intro x
    rw [Forest.mem_walk ht [h] out hw x]
    simp only [List.mem_singleton, exists_eq_left]
  refine ⟨out, hw, Forest.nodup_walk ht [h] out hw (List.pairwise_singleton _ h), hmem, ?_⟩
  intro x hx
  rw [contains_iff_held]
  exact Forest.held_of_above s.root s.parent x h ((hmem x).mp hx) ((s.contains_iff_held h).mp hh)

/-- Walking the grid from the cell of a tracked node notes what lies under
    it. -/
theorem Sound.surveyFrom_get (i : Index) (hi : i.column = 0) (hh : s.contains i.node = true)
    (seen : HandleMap (List Handle)) (x : Handle) (P : Prop) [Decidable P]
    (hP : P ↔ Under s.parent x i.node) :
    (s.surveyFrom i seen)[x]? = if P then some (s.children x) else seen[x]? := by
  rcases hs.exists_grid_walk s i.node hh with ⟨out, hw, hnd, hmem, htracked⟩
  have hlen : out.length ≤ s.parents.size + 1 := by
    have hsub := (List.subperm_of_subset hnd fun x hx =>
      (s.mem_nodeList x).mpr (htracked x hx)).length_le
    rw [length_nodeList, size] at hsub
    split at hsub <;> omega
  rw [surveyFrom, s.survey_of_walk [i.node] out hw _ [i] seen rfl
    (by simp only [List.mem_singleton, forall_eq, hi]) hlen]
  by_cases hx : x ∈ out
  · rw [if_pos hx, if_pos (hP.mpr ((hmem x).mp hx))]
  · rw [if_neg hx, if_neg fun hp => hx ((hmem x).mpr (hP.mp hp))]

/-- The grid of a sound record shows the tracked nodes with their children. -/
theorem Sound.shape_get (x : Handle) :
    s.shape[x]? = if s.contains x = true then some (s.children x) else none := by
  cases hr : s.root with
  | none =>
      have hx : s.contains x ≠ true := by
        intro hx
        rcases hs.tree.held_under_root x ((s.contains_iff_held x).mp hx) with ⟨r, hr', _⟩
        rw [hr] at hr'
        exact absurd hr' (by simp only [reduceCtorEq, not_false_eq_true])
      rw [shape_of_rootless s hr, if_neg hx, Std.ExtTreeMap.getElem?_empty]
  | some r =>
      rcases hs.exists_grid_walk s r ((s.contains_iff r).mpr (Or.inl hr)) with
        ⟨out, hw, hnd, hmem, htracked⟩
      rw [s.shape_of_walk r hr out hw hnd htracked]
      by_cases hx : s.contains x = true
      · rcases hs.tree.held_under_root x ((s.contains_iff_held x).mp hx) with ⟨r', hr', hu⟩
        rw [hr, Option.some.injEq] at hr'
        rw [if_pos hx, if_pos ((hmem x).mpr (hr' ▸ hu))]
      · rw [if_neg hx, if_neg fun hm => hx (htracked x hm)]

/-- Outside of a subtree, a record with the subtree taken out holds what one holds
    that forgot it. -/
theorem Sound.outside_detach (h p : Handle) (hp : s.parent h = some p) (x : Handle)
    (hx : (s.remove h).2.contains x = true) :
    (s.detach h).2.contains x = true ∧ (s.detach h).2.parent x = (s.remove h).2.parent x ∧
      (s.detach h).2.children x = (s.remove h).2.children x := by
  have hcut := hs.cuts_remove s h (hs.tree.root_ne h p hp)
  rcases (hcut.contains_iff x).mp hx with ⟨hsx, hg⟩
  have hxh : h ≠ x := by
    rintro rfl
    exact hg (Under.refl h)
  refine ⟨?_, ?_, ?_⟩
  · rw [contains_iff, root_detach, parent_detach, if_neg hxh]
    exact (s.contains_iff x).mp hsx
  · rw [parent_detach, if_neg hxh, hcut.links.kept x hg]
  · refine Handle.ascending_ext _ _ (hs.ascending_detach s p h hp x) (hcut.sound.ascending x) ?_
    intro c
    rw [hs.mem_children_detach s p h hp, hcut.mem_children_iff hs, hs.tree.mem_kids]
    -- A child of a node outside of the subtree is its top or is outside, too.
    constructor
    · rintro ⟨hch, hcx⟩
      refine ⟨hcx, fun hu => ?_⟩
      rcases (under_iff_up c h).mp hu with he | ⟨q, hq, hqh⟩
      · exact hch he
      · rw [hcx, Option.some.injEq] at hq
        exact hg (hq ▸ hqh)
    · rintro ⟨hcx, hu⟩
      exact ⟨fun he => hu (he ▸ Under.refl c), hcx⟩

/-- A record with a subtree taken out looks like one that forgot the
    subtree. -/
theorem Sound.shape_detach (h p : Handle) (hp : s.parent h = some p) :
    (s.detach h).2.shape = (s.remove h).2.shape := by
  have hcut := hs.cuts_remove s h (hs.tree.root_ne h p hp)
  have hstay := hs.outside_detach s h p hp
  cases hr : s.root with
  | none =>
      rw [shape_of_rootless _ ((s.root_detach h).trans hr),
        shape_of_rootless _ (hcut.root.trans hr)]
  | some r =>
      have hr' : (s.remove h).2.root = some r := hcut.root.trans hr
      rcases hcut.sound.exists_grid_walk _ r ((contains_iff _ r).mpr (Or.inl hr')) with
        ⟨out, hw, hnd, _, htracked⟩
      have hwd : Forest.Walk (fun x => ((s.detach h).2.children x).reverse) [r] out :=
        hw.congr [r] out fun x hx => congrArg _ (hstay x (htracked x hx)).2.2
      refine Std.ExtTreeMap.ext_getElem? fun x => ?_
      rw [shape_of_walk _ r hr' out hw hnd htracked,
        shape_of_walk _ r ((s.root_detach h).trans hr) out hwd hnd
          fun x hx => (hstay x (htracked x hx)).1]
      by_cases hx : x ∈ out
      · rw [if_pos hx, if_pos hx, (hstay x (htracked x hx)).2.2]
      · rw [if_neg hx, if_neg hx]

end Sound

end Store

end TreeWatch
