import TreeWatch.Proofs.Shape
import TreeWatch.Replica

/-!
# Announcements a Copy Can Follow

A consumer that applies every announcement to a copy of the grid, with the
announced row numbers and nothing else, has after each of them the grid of
that moment. `Tells s trace t` says so of a trace that leads from the record
`s` to the record `t`: whatever copy matches `s` before the first
announcement follows all of them without a mismatch and matches `t` in the
end. Such traces can be put one after the other, so it is enough to know the
single changes.

There are three. A removal of consecutive rows goes from a record to a cut of
it, an insertion of consecutive rows the other way, and a reset replaces the
whole grid. Everything else that is announced leaves the grid alone.

## Main definitions

* `Replica.Follows`: A copy is right after each announcement.
* `Tells`: A trace leads from one record to another.

## Theorems

* `Tells.append`: Traces one after the other.
* `tells_removal`, `tells_insertion`, `tells_reset`: The three changes.
* `tells_quiet`: Announced deletions and attribute changes leave the grid
  alone.
* `Replica.Follows.at_every`: After each announcement, stated for a trace as a
  whole.
-/

namespace TreeWatch

open Forest (Under under_iff_up)

namespace Replica

/-- The copy takes the announcements one after the other. After each of them
    it shows the grid of that moment, and nothing more is noted. -/
def Follows : Replica → List Notice → Prop
  | _, [] => True
  | r, n :: rest =>
    (r.apply n.event n.store).mismatches = r.mismatches ∧
      (r.apply n.event n.store).matchesGrid n.store = true ∧
      (r.apply n.event n.store).Follows rest

theorem observe_cons (r : Replica) (n : Notice) (trace : List Notice) :
    r.observe (n :: trace) = (r.apply n.event n.store).observe trace :=
  rfl

theorem observe_append (r : Replica) (before after : List Notice) :
    r.observe (before ++ after) = (r.observe before).observe after :=
  List.foldl_append

theorem follows_append (r : Replica) (before after : List Notice) :
    r.Follows (before ++ after) ↔ r.Follows before ∧ (r.observe before).Follows after := by
  induction before generalizing r with
  | nil => exact ⟨fun h => ⟨trivial, h⟩, fun h => h.2⟩
  | cons n before ih =>
      rw [List.cons_append, Follows, Follows, ih, observe_cons]
      tauto

theorem Follows.mismatches_eq (r : Replica) (trace : List Notice) (h : r.Follows trace) :
    (r.observe trace).mismatches = r.mismatches := by
  induction trace generalizing r with
  | nil => rfl
  | cons n trace ih =>
      rw [observe_cons, ih _ h.2.2, h.1]

/-- A copy that follows a trace has noted nothing and shows the grid of the
    moment after each announcement of it. -/
theorem Follows.at_every (r : Replica) (trace : List Notice) (h : r.Follows trace)
    (before : List Notice) (n : Notice) (after : List Notice)
    (htrace : trace = before ++ n :: after) :
    (r.observe (before ++ [n])).mismatches = r.mismatches ∧
      (r.observe (before ++ [n])).matchesGrid n.store = true := by
  rw [htrace, follows_append] at h
  rcases h with ⟨hbefore, hn, hgrid, _⟩
  rw [observe_append, observe_cons]
  exact ⟨hn.trans (hbefore.mismatches_eq r before), hgrid⟩

theorem index_top (s : Store) : (s.index 0 0 none).map Index.node = s.root := by
  simp only [Store.index, columnCount, Nat.reduceLeDiff, if_false, if_true, Option.map_map]
  exact Option.map_id' (x := s.root)

theorem matchesGrid_iff (r : Replica) (s : Store) :
    r.matchesGrid s = true ↔ r.root = s.root ∧ r.childLists = s.shape := by
  rw [matchesGrid, index_top, Bool.and_eq_true, decide_eq_true_eq, decide_eq_true_eq]

end Replica

/-- Whatever copy matches `s` before the trace follows it and matches `t`
    after it. -/
def Tells (s : Store) (trace : List Notice) (t : Store) : Prop :=
  ∀ r : Replica, r.matchesGrid s = true → r.Follows trace ∧ (r.observe trace).matchesGrid t = true

theorem tells_nil (s : Store) : Tells s [] s := fun _ hr => ⟨trivial, hr⟩

theorem Tells.append (s t u : Store) (before after : List Notice) (hst : Tells s before t)
    (htu : Tells t after u) : Tells s (before ++ after) u := by
  intro r hr
  rcases hst r hr with ⟨hbefore, ht⟩
  rcases htu _ ht with ⟨hafter, hu⟩
  rw [Replica.follows_append, Replica.observe_append]
  exact ⟨⟨hbefore, hafter⟩, hu⟩

/-- A single announcement leads from `s` to `t` if it makes a copy of the one
    into a copy of the other. The record shown with it only has to look like
    `t`. -/
theorem tells_one (s t d : Store) (e : Event) (hroot : d.root = t.root) (hshape : d.shape = t.shape)
    (he : ∀ r : Replica, r.root = s.root → r.childLists = s.shape →
      (r.apply e d).mismatches = r.mismatches ∧ (r.apply e d).root = t.root ∧
        (r.apply e d).childLists = t.shape) :
    Tells s [⟨e, d⟩] t := by
  intro r hr
  rcases (r.matchesGrid_iff s).mp hr with ⟨hrroot, hlists⟩
  rcases he r hrroot hlists with ⟨hm, ht⟩
  have hd : (r.apply e d).matchesGrid d = true := by
    rw [Replica.matchesGrid_iff, hroot, hshape]
    exact ht
  exact ⟨⟨hm, hd, trivial⟩, (Replica.matchesGrid_iff _ t).mpr ht⟩

/-- Announced deletions and attribute changes leave the grid alone. -/
theorem tells_quiet (s : Store) (trace : List Notice)
    (hquiet : ∀ n ∈ trace, n.store = s ∧
      ((∃ h, n.event = .nodeDeleted h) ∨ ∃ i c kinds, n.event = .dataChanged i c kinds)) :
    Tells s trace s := by
  induction trace with
  | nil => exact tells_nil s
  | cons n trace ih =>
      rcases n with ⟨e, d⟩
      rcases hquiet ⟨e, d⟩ List.mem_cons_self with ⟨hd, he⟩
      dsimp only at hd he
      have hone : Tells s [⟨e, d⟩] s := by
        refine tells_one s s d e (hd ▸ rfl) (hd ▸ rfl) fun r hroot hlists => ?_
        rcases he with ⟨h, rfl⟩ | ⟨i, c, kinds, rfl⟩
        · exact ⟨rfl, hroot, hlists⟩
        · exact ⟨rfl, hroot, hlists⟩
      exact hone.append s s s [_] trace (ih fun m hm => hquiet m (List.mem_cons_of_mem _ hm))

/-- After a reset the copy starts again from the grid. -/
theorem tells_reset (s t : Store) :
    Tells s [⟨.modelAboutToBeReset, s⟩, ⟨.modelReset, t⟩] t := by
  have hbefore := tells_one s s s .modelAboutToBeReset rfl rfl fun r hroot hlists =>
    ⟨rfl, hroot, hlists⟩
  have hafter := tells_one s t t .modelReset rfl rfl fun r _ _ =>
    ⟨rfl, Replica.index_top t, rfl⟩
  exact hbefore.append s s t _ _ hafter

section Tables

variable (s t : Store) (gone : Handle → Prop) (p : Handle) (front rows back : List Handle)

/-- Dropping the lists of some rows and of all below them, after the rows
    were taken out of their list, turns the shape of a record into the shape
    of its cut. -/
theorem forget_rows (hs : s.Sound) (hcut : s.Cuts t gone)
    (hgone : ∀ x, gone x ↔ ∃ v ∈ rows, Under s.parent x v)
    (hp : s.contains p = true) (hkids : s.children p = front ++ rows ++ back) :
    (Forest.uproot rows (s.shape.insert p (front ++ back))).2 = t.shape := by
  have hrow : ∀ v ∈ rows, s.parent v = some p := by
    intro v hv
    rw [← hs.tree.mem_kids, hkids]
    exact List.mem_append_left _ (List.mem_append_right _ hv)
  have hpgone := mt (hgone p).mp (hs.parent_not_under_rows s p rows hrow)
  rcases hs.tree.exists_walk rows with ⟨out, hw⟩
  have hmem : ∀ x, x ∈ out ↔ gone x := by
    intro x
    rw [Forest.mem_walk hs.tree rows out hw, hgone]
  have hsub : rows.Sublist (s.children p) := by
    rw [hkids]
    exact (List.sublist_append_right front rows).trans (List.sublist_append_left _ back)
  have hnd := Forest.nodup_walk hs.tree rows out hw
    (List.Pairwise.sublist hsub (hs.tree.kids_apart p))
  -- The list that was shortened belongs to a node that stays.
  have hw' : Forest.Walk (Forest.kids (s.shape.insert p (front ++ back))) rows out := by
    refine hw.congr rows out fun x hx => ?_
    have hxp : p ≠ x := by
      rintro rfl
      exact hpgone ((hmem p).mp hx)
    rw [Forest.kids_insert, if_neg hxp, Forest.kids_eq, hs.shape_get]
    by_cases hc : s.contains x = true
    · rw [if_pos hc, Option.getD_some]
    · rw [if_neg hc, Option.getD_none, hs.children_of_untracked s x (Bool.not_eq_true _ ▸ hc)]
  have hrows := hcut.children_rows hs p front rows back hkids fun c hc =>
    (hgone c).trans (hs.under_rows_iff s p rows hrow c hc)
  refine Std.ExtTreeMap.ext_getElem? fun x => ?_
  rw [(Forest.uproot_eq_of_walk rows out _ hw' hnd).2, hcut.sound.shape_get]
  by_cases hx : gone x
  · rw [if_pos ((hmem x).mpr hx), if_neg fun hc => ((hcut.contains_iff x).mp hc).2 hx]
  · rw [if_neg (mt (hmem x).mp hx), HandleMap.get_insert]
    by_cases hxp : p = x
    · rw [if_pos hxp, ← hxp, if_pos ((hcut.contains_iff p).mpr ⟨hp, hpgone⟩), hrows]
    · rw [if_neg hxp, hs.shape_get, hcut.children_elsewhere hs p rows hrow hgone x hxp hx]
      by_cases hc : s.contains x = true
      · rw [if_pos hc, if_pos ((hcut.contains_iff x).mpr ⟨hc, hx⟩)]
      · rw [if_neg hc, if_neg fun ht => hc ((hcut.contains_iff x).mp ht).1]

/-- Noting the lists under some cells adds what lies under their nodes. -/
theorem foldl_surveyFrom_get (ht : t.Sound) (x : Handle) (P : List Handle → Prop)
    [DecidablePred P] (hP : ∀ nodes, P nodes ↔ ∃ v ∈ nodes, Under t.parent x v) (cells : List Index)
    (seen : HandleMap (List Handle)) (hcol : ∀ i ∈ cells, i.column = 0)
    (hnode : ∀ i ∈ cells, t.contains i.node = true) :
    (cells.foldl (fun seen i => t.surveyFrom i seen) seen)[x]? =
      if P (cells.map Index.node) then some (t.children x) else seen[x]? := by
  induction cells generalizing seen with
  | nil =>
      have hno : ¬ P [] := by
        rw [hP]
        simp only [List.not_mem_nil, false_and, exists_false, not_false_eq_true]
      rw [List.foldl_nil, List.map_nil, if_neg hno]
  | cons i cells ih =>
      have hone : P [i.node] ↔ Under t.parent x i.node := by
        rw [hP]
        simp only [List.mem_singleton, exists_eq_left]
      have hboth : P (i.node :: cells.map Index.node) ↔ P [i.node] ∨ P (cells.map Index.node) := by
        simp only [hP, List.mem_cons, List.not_mem_nil, or_false, exists_eq_or_imp, exists_eq_left]
      rw [List.foldl_cons, ih _ (fun j hj => hcol j (List.mem_cons_of_mem i hj))
        fun j hj => hnode j (List.mem_cons_of_mem i hj),
        ht.surveyFrom_get t i (hcol i List.mem_cons_self) (hnode i List.mem_cons_self) seen x _
          hone,
        List.map_cons]
      by_cases hx : P (cells.map Index.node)
      · rw [if_pos hx, if_pos (hboth.mpr (Or.inr hx))]
      · by_cases hxi : P [i.node]
        · rw [if_neg hx, if_pos hxi, if_pos (hboth.mpr (Or.inl hxi))]
        · rw [if_neg hx, if_neg hxi, if_neg (mt hboth.mp (not_or.mpr ⟨hxi, hx⟩))]

/-- Noting the lists of some rows and of all below them, after the rows were
    put into their list, turns the shape of a cut back into the shape of the
    record. -/
theorem adopt_rows (ht : t.Sound) (hcut : t.Cuts s gone)
    (hgone : ∀ x, gone x ↔ ∃ v ∈ rows, Under t.parent x v)
    (hp : s.contains p = true) (hkids : t.children p = front ++ rows ++ back)
    (cells : List Index) (hcells : cells.map Index.node = rows) (hcol : ∀ i ∈ cells, i.column = 0) :
    cells.foldl (fun seen i => t.surveyFrom i seen) (s.shape.insert p (front ++ rows ++ back)) =
      t.shape := by
  classical
  have hrow : ∀ v ∈ rows, t.parent v = some p := by
    intro v hv
    rw [← ht.tree.mem_kids, hkids]
    exact List.mem_append_left _ (List.mem_append_right _ hv)
  have htracked : ∀ v ∈ rows, t.contains v = true := fun v hv =>
    (t.contains_iff v).mpr (Or.inr ⟨p, hrow v hv⟩)
  refine Std.ExtTreeMap.ext_getElem? fun x => ?_
  rw [foldl_surveyFrom_get t ht x (fun nodes => ∃ v ∈ nodes, Under t.parent x v) (fun _ => Iff.rfl)
    cells _ hcol fun i hi => htracked _ (hcells ▸ List.mem_map_of_mem hi), hcells, ht.shape_get]
  by_cases hx : gone x
  · have htx : t.contains x = true := by
      rcases (hgone x).mp hx with ⟨v, hv, hu⟩
      rw [Store.contains_iff_held]
      exact Forest.held_of_above t.root t.parent x v hu ((t.contains_iff_held v).mp (htracked v hv))
    rw [if_pos ((hgone x).mp hx), if_pos htx]
  · rw [if_neg (mt (hgone x).mpr hx), HandleMap.get_insert]
    by_cases hxp : p = x
    · rw [if_pos hxp, ← hxp, if_pos ((hcut.contains_iff p).mp hp).1, hkids]
    · rw [if_neg hxp, hcut.sound.shape_get, hcut.children_elsewhere ht p rows hrow hgone x hxp hx]
      by_cases hc : t.contains x = true
      · rw [if_pos hc, if_pos ((hcut.contains_iff x).mpr ⟨hc, hx⟩)]
      · rw [if_neg hc, if_neg fun ht => hc ((hcut.contains_iff x).mp ht).1]

end Tables

namespace Replica

-- The rows of an announcement, as the grid shows them.
theorem index_row (s : Store) (i : Index) (row : Nat) :
    s.index row 0 (some i) = (s.children i.node)[row]?.map (⟨row, 0, ·⟩) := by
  simp only [Store.index, columnCount, Nat.reduceLeDiff, if_false]

theorem mem_span (first last row : Nat) : row ∈ span first last ↔ first ≤ row ∧ row ≤ last := by
  rw [span, List.mem_map]
  constructor
  · rintro ⟨k, hk, rfl⟩
    rw [List.mem_range] at hk
    omega
  · rintro ⟨hfirst, hlast⟩
    exact ⟨row - first, List.mem_range.mpr (by omega), by omega⟩

/-- Rows that copy and grid have in common pass the check before a removal. -/
theorem checkRows_eq (r : Replica) (grid : Store) (parent : Option Index) (first last : Nat)
    (hrows : ∀ row, first ≤ row → row ≤ last → ∃ h, (r.rows parent)[row]? = some h ∧
      (grid.index row 0 parent).map Index.node = some h) :
    r.checkRows grid parent first last = r := by
  have hfold : ∀ rows : List Nat, (∀ row ∈ rows, first ≤ row ∧ row ≤ last) →
      rows.foldl
        (fun acc row =>
          let mine := (r.rows parent)[row]?
          let theirs := (grid.index row 0 parent).map Index.node
          if mine.isNone || mine ≠ theirs then acc.note (.rowDiffers row mine theirs) else acc)
        r = r := by
    intro rows
    induction rows with
    | nil => exact fun _ => rfl
    | cons row rows ih =>
        intro hall
        rcases hall row List.mem_cons_self with ⟨hfirst, hlast⟩
        rcases hrows row hfirst hlast with ⟨h, hmine, htheirs⟩
        rw [List.foldl_cons]
        simp only [hmine, htheirs, Option.isNone_some, ne_eq, not_true_eq_false, decide_false,
          Bool.or_self, Bool.false_eq_true, if_false]
        exact ih fun x hx => hall x (List.mem_cons_of_mem row hx)
  exact hfold _ fun row hrow => (mem_span first last row).mp hrow

section Rows

variable (i : Index) (front rows back : List Handle)

/-- Removed rows leave the list that was announced, and all lists under them
    are forgotten. -/
theorem removeRows_eq (r : Replica) (hne : rows ≠ [])
    (hget : r.childLists[i.node]? = some (front ++ rows ++ back)) :
    r.removeRows (some i) front.length (front.length + rows.length - 1) =
      { r with childLists :=
          (Forest.uproot rows (r.childLists.insert i.node (front ++ back))).2 } := by
  have hpos : 0 < rows.length := List.length_pos_iff.mpr hne
  have hin : ¬ ((front ++ rows ++ back).length ≤ front.length + rows.length - 1 ∨
      front.length + rows.length - 1 < front.length) := by
    rw [List.length_append, List.length_append]
    omega
  have hlast : front.length + rows.length - 1 + 1 = (front ++ rows).length := by
    rw [List.length_append]
    omega
  have hcount : (front ++ rows).length - front.length = rows.length := by
    rw [List.length_append]
    omega
  have hgone : ((front ++ rows ++ back).drop front.length).take rows.length = rows := by
    rw [List.append_assoc, List.drop_left, List.take_left]
  have hkept : (front ++ rows ++ back).take front.length ++
      (front ++ rows ++ back).drop (front ++ rows).length = front ++ back := by
    rw [List.drop_left, List.append_assoc, List.take_left]
  simp only [removeRows, hget, Bool.or_eq_true, decide_eq_true_eq, hin, if_false, hlast, hcount,
    hgone, hkept, forget]

/-- The rows that a grid shows where an insertion was announced. -/
theorem shown_rows (t : Store) (hne : rows ≠ [])
    (hkids : t.children i.node = front ++ rows ++ back) :
    (span front.length (front.length + rows.length - 1)).map
        (fun row => (row, t.index row 0 (some i))) =
      (List.range rows.length).map fun k =>
        (front.length + k, rows[k]?.map (⟨front.length + k, 0, ·⟩)) := by
  have hpos : 0 < rows.length := List.length_pos_iff.mpr hne
  rw [span, List.map_map,
    show front.length + rows.length - 1 + 1 - front.length = rows.length by omega]
  refine List.map_congr_left fun k hk => ?_
  rw [List.mem_range] at hk
  have hrow : (front ++ rows ++ back)[front.length + k]? = rows[k]? := by
    rw [List.append_assoc, List.getElem?_append_right (by omega), Nat.add_sub_cancel_left,
      List.getElem?_append_left hk]
  rw [Function.comp_apply, index_row, hkids, hrow]

/-- Inserted rows go where they were announced, and with them all that the grid
    shows below them. -/
theorem insertRows_eq (t : Store) (hne : rows ≠ [])
    (hkids : t.children i.node = front ++ rows ++ back) :
    ∃ cells : List Index, cells.map Index.node = rows ∧ (∀ j ∈ cells, j.column = 0) ∧
      ∀ r : Replica, r.childLists[i.node]? = some (front ++ back) →
        r.insertRows t (some i) front.length (front.length + rows.length - 1) =
          { r with
            childLists := cells.foldl (fun seen j => t.surveyFrom j seen)
              (r.childLists.insert i.node (front ++ rows ++ back)) } := by
  have hcells := Store.filterMap_range_get rows fun k h => ⟨front.length + k, 0, h⟩
  have hnodes : (rows.mapIdx fun k h => (⟨front.length + k, 0, h⟩ : Index)).map Index.node =
      rows := by
    rw [List.mapIdx_eq_zipIdx_map, List.map_map]
    exact List.zipIdx_map_fst 0 rows
  refine ⟨rows.mapIdx fun k h => ⟨front.length + k, 0, h⟩, hnodes, fun j hj => ?_, fun r hget => ?_⟩
  · rcases List.mem_mapIdx.mp hj with ⟨k, hk, rfl⟩
    rfl
  · -- Every announced row is there, so nothing is noted.
    have hshown : ∀ (ks : List Nat) (r : Replica), (∀ k ∈ ks, k < rows.length) →
        (ks.map fun k => (front.length + k, rows[k]?.map
          (fun h => (⟨front.length + k, 0, h⟩ : Index)))).foldl
          (fun r e => if e.2.isNone then r.note (.rowMissing e.1) else r) r = r := by
      intro ks
      induction ks with
      | nil => exact fun _ _ => rfl
      | cons k ks ih =>
          intro r hall
          rw [List.map_cons, List.foldl_cons, List.getElem?_eq_getElem (hall k List.mem_cons_self)]
          exact ih r fun x hx => hall x (List.mem_cons_of_mem k hx)
    have hin : ¬ (front ++ back).length < front.length := by
      rw [List.length_append]
      omega
    simp only [insertRows, shown_rows i front rows back t hne hkids,
      hshown _ r fun k hk => List.mem_range.mp hk, List.filterMap_map, Function.comp_def, hcells,
      hnodes, hget, hin, if_false, List.take_left, List.drop_left, adopt]

end Rows

end Replica

section Changes

variable (s t : Store) (gone : Handle → Prop) (i : Index) (front rows back : List Handle)

/-- A removal of consecutive rows, announced before and after. The record shown
    with the second announcement may be one that only looks like the cut. -/
theorem tells_removal (hs : s.Sound) (hcut : s.Cuts t gone)
    (hgone : ∀ x, gone x ↔ ∃ v ∈ rows, Under s.parent x v)
    (hp : s.contains i.node = true) (hkids : s.children i.node = front ++ rows ++ back)
    (hne : rows ≠ []) (d : Store) (hroot : d.root = t.root) (hshape : d.shape = t.shape) :
    Tells s [⟨.rowsAboutToBeRemoved (some i) front.length (front.length + rows.length - 1), s⟩,
      ⟨.rowsRemoved (some i) front.length (front.length + rows.length - 1), d⟩] t := by
  have hlist : s.shape[i.node]? = some (front ++ rows ++ back) := by
    rw [hs.shape_get, if_pos hp, hkids]
  refine Tells.append s s t [_] [_] (tells_one s s s _ rfl rfl fun r hrroot hlists => ?_)
    (tells_one s t d _ hroot hshape fun r hrroot hlists => ?_)
  · rw [Replica.apply, Replica.checkRows_eq]
    · exact ⟨rfl, hrroot, hlists⟩
    · intro row hfirst hlast
      have hpos : 0 < rows.length := List.length_pos_iff.mpr hne
      have hlt : row < (s.children i.node).length := by
        rw [hkids, List.length_append, List.length_append]
        omega
      refine ⟨(s.children i.node)[row], ?_, ?_⟩
      · simp only [Replica.rows, hlists, Forest.kids_eq, hlist, Option.getD_some]
        rw [← hkids, List.getElem?_eq_getElem hlt]
      · rw [Replica.index_row, List.getElem?_eq_getElem hlt]
        rfl
  · rw [Replica.apply, Replica.removeRows_eq i front rows back _ hne]
    · refine ⟨rfl, hrroot.trans hcut.root.symm, ?_⟩
      simp only [hlists]
      exact forget_rows s t gone i.node front rows back hs hcut hgone hp hkids
    · simp only [hlists, hlist]

/-- An insertion of consecutive rows, announced before and after. It is a
    removal read backwards. The record shown with the first announcement may be
    one that only looks like the cut. -/
theorem tells_insertion (ht : t.Sound) (hcut : t.Cuts s gone)
    (hgone : ∀ x, gone x ↔ ∃ v ∈ rows, Under t.parent x v)
    (hp : s.contains i.node = true) (hkids : t.children i.node = front ++ rows ++ back)
    (hne : rows ≠ []) (d : Store) (hroot : d.root = s.root) (hshape : d.shape = s.shape) :
    Tells s [⟨.rowsAboutToBeInserted (some i) front.length (front.length + rows.length - 1), d⟩,
      ⟨.rowsInserted (some i) front.length (front.length + rows.length - 1), t⟩] t := by
  have hrow : ∀ v ∈ rows, t.parent v = some i.node := by
    intro v hv
    rw [← ht.tree.mem_kids, hkids]
    exact List.mem_append_left _ (List.mem_append_right _ hv)
  have hrows : s.children i.node = front ++ back :=
    hcut.children_rows ht i.node front rows back hkids fun c hc =>
      (hgone c).trans (ht.under_rows_iff t i.node rows hrow c hc)
  have hlist : s.shape[i.node]? = some (front ++ back) := by
    rw [hcut.sound.shape_get, if_pos hp, hrows]
  refine Tells.append s s t [_] [_] (tells_one s s d _ hroot hshape fun r hrroot hlists => ?_)
    (tells_one s t t _ rfl rfl fun r hrroot hlists => ?_)
  · have hcount : ¬ (front ++ back).length < front.length := by
      rw [List.length_append]
      omega
    simp only [Replica.apply, Replica.rows, hlists, Forest.kids_eq, hlist, Option.getD_some, hcount,
      if_false, hrroot, and_self]
  · have hget : r.childLists[i.node]? = some (front ++ back) := by rw [hlists, hlist]
    rcases Replica.insertRows_eq i front rows back t hne hkids with ⟨cells, hcells, hcol, heq⟩
    rw [Replica.apply, heq _ (by exact hget)]
    refine ⟨rfl, hrroot.trans hcut.root, ?_⟩
    simp only [hlists]
    exact adopt_rows s t gone i.node front rows back ht hcut hgone hp hkids cells hcells hcol

end Changes

end TreeWatch
