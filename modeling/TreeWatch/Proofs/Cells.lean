import TreeWatch.Proofs.Views

/-!
# Rows Counted and Rows Found

A view that shows the grid asks how many rows there are under a cell and then
for the cells in them. The count and the cells come from two functions, each of
which decides by itself what exists. They agree at the top level and under the
first cell of a row. The second cell of a row, which shows the type of the node,
counts no rows, but it has cells: the children of its node are found under it as
they are found under the first one. Such cells are handed out for every tracked
node, so the two functions agree throughout only if no node has a child.

Whatever cell is found, the way back up leads to the first cell of the row it
was asked under.

## Main definitions

* `Store.Hands`: The cells that a consumer comes to hold.
* `Store.CountsCell`: A cell is found exactly if its row and column are counted.
* `Store.Uncounted`: The cells that are found under a type cell.
* `Store.HangsUnder`: The way up from a cell leads back to where it was found.

## Theorems

* `Store.countsCell_iff`: Where the count and the cells agree.
* `Store.Sound.hands_typeCell`: The type cell of every tracked node is handed
  out.
* `Store.Sound.hangsUnder_of_index`: The way up from a cell.
* `Store.cells_counted_iff`: All of this for a record that passes the check.
-/

namespace TreeWatch

namespace Store

/-- The cells that a consumer can come to hold: it asks for a cell of the top
    level or under a cell it holds, for the cell of a node, or for the cell
    above one that it holds. -/
inductive Hands (s : Store) : Option Index → Prop where
  | top : Hands s none
  | cell (row column : Nat) (parent : Option Index) (hparent : Hands s parent) :
    Hands s (s.index row column parent)
  | ofNode (h : Handle) : Hands s (s.indexForNode h)
  | above (i : Index) (hi : Hands s (some i)) : Hands s (s.parentIndex i)

/-- A cell is found exactly if its row and its column are counted. -/
def CountsCell (s : Store) (row column : Nat) (parent : Option Index) : Prop :=
  (s.index row column parent).isSome = true ↔ row < s.rowCount parent ∧ column < columnCount

/-- The parent is not the first cell of its row, and there is a child of its node
    for the row. -/
def Uncounted (s : Store) (row column : Nat) (parent : Option Index) : Prop :=
  ∃ p, parent = some p ∧ p.column ≠ 0 ∧ row < (s.children p.node).length ∧ column < columnCount

/-- The cell above `i` is the first cell of the row of the node under which `i`
    was found, and there is none if it was found at the top level. -/
structure HangsUnder (s : Store) (i : Index) (parent : Option Index) : Prop where
  top : parent = none → s.parentIndex i = none
  under : ∀ p, parent = some p →
    ∃ row, s.rowOf? p.node = some row ∧ s.parentIndex i = some (Index.ofRow row p.node)

/-- The node that is shown in a row. -/
def rowNode (s : Store) (row : Nat) : Option Index → Option Handle
  | none => if row = 0 then s.root else none
  | some p => (s.children p.node)[row]?

-- A cell is found for each row that shows a node and each column.
theorem index_eq_some_iff (s : Store) (row column : Nat) (parent : Option Index) (i : Index) :
    s.index row column parent = some i ↔
      column < columnCount ∧ ∃ x, s.rowNode row parent = some x ∧ i = ⟨row, column, x⟩ := by
  unfold index
  by_cases hcolumn : columnCount ≤ column
  · rw [if_pos hcolumn]
    exact iff_of_false (Option.some_ne_none i).symm fun h => absurd h.1 (Nat.not_lt.mpr hcolumn)
  · rw [if_neg hcolumn, Option.map_eq_some_iff, and_iff_right (Nat.not_le.mp hcolumn)]
    cases parent <;> simp only [rowNode, eq_comm]

theorem isSome_index_iff (s : Store) (row column : Nat) (parent : Option Index) :
    (s.index row column parent).isSome = true ↔
      (s.rowNode row parent).isSome = true ∧ column < columnCount := by
  simp only [Option.isSome_iff_exists, index_eq_some_iff]
  constructor
  · rintro ⟨_, hcolumn, x, hx, _⟩
    exact ⟨⟨x, hx⟩, hcolumn⟩
  · rintro ⟨⟨x, hx⟩, hcolumn⟩
    exact ⟨_, hcolumn, x, hx, rfl⟩

/-- The count and the cells agree except under a cell that is not the first of its
    row, where the children of the node are found and not counted. -/
theorem countsCell_iff (s : Store) (row column : Nat) (parent : Option Index) :
    s.CountsCell row column parent ↔ ¬ s.Uncounted row column parent := by
  rw [CountsCell, isSome_index_iff]
  cases parent with
  | none =>
      refine iff_of_true (and_congr_left fun _ => ?_) ?_
      · rw [rowNode, rowCount]
        cases s.root <;> by_cases hrow : row = 0 <;> simp [hrow]
      · rintro ⟨p, hp, _⟩
        exact absurd hp (Option.some_ne_none p).symm
  | some p =>
      simp only [Uncounted, Option.some.injEq, exists_eq_left', rowNode, rowCount,
        Option.isSome_iff_ne_none, ne_eq, List.getElem?_eq_none_iff, not_le]
      by_cases hp : p.column = 0
      · simp only [hp, not_true_eq_false, if_false, false_and, not_false_eq_true]
      · simp only [hp, not_false_eq_true, if_true, Nat.not_lt_zero, false_and, iff_false, true_and]

section Sound

variable (s : Store) (hs : s.Sound)

include hs

/-- The cell that shows the type of a tracked node is handed out. -/
theorem Sound.hands_typeCell (h : Handle) (hh : s.contains h = true) :
    ∃ i, s.Hands (some i) ∧ i.node = h ∧ i.column = 1 := by
  rcases hs.places s h hh with ⟨i, hi⟩
  have habove : s.Hands (s.parentIndex i) := .above i (hi.found ▸ .ofNode h)
  -- The second cell of a row is found next to the first one.
  have hbeside : s.index i.row 1 (s.parentIndex i) = some ⟨i.row, 1, h⟩ := by
    rcases (s.index_eq_some_iff _ _ _ _).mp hi.shown with ⟨_, x, hx, he⟩
    have hxh : x = h := (congrArg Index.node he).symm.trans hi.node
    exact (s.index_eq_some_iff _ _ _ _).mpr ⟨Nat.one_lt_two, x, hx, hxh ▸ rfl⟩
  have hcell : s.Hands (some ⟨i.row, 1, h⟩) := hbeside ▸ Hands.cell i.row 1 _ habove
  exact ⟨_, hcell, rfl, rfl⟩

/-- The way up from a cell leads to the first cell of the row of the node under
    which it was found. -/
theorem Sound.hangsUnder_of_index (row column : Nat) (parent : Option Index) (i : Index)
    (hi : s.index row column parent = some i) : s.HangsUnder i parent := by
  rcases (s.index_eq_some_iff _ _ _ _).mp hi with ⟨_, x, hx, rfl⟩
  refine ⟨?_, ?_⟩
  · rintro rfl
    rw [rowNode] at hx
    by_cases hrow : row = 0
    · rw [if_pos hrow] at hx
      rw [parentIndex, hs.tree.root_up x hx, Option.bind_none]
    · rw [if_neg hrow] at hx
      exact absurd hx (Option.some_ne_none x).symm
  · rintro p rfl
    have hup : s.parent x = some p.node :=
      (hs.tree.mem_kids p.node x).mp (List.mem_of_getElem? hx)
    have hp : s.contains p.node = true :=
      (s.contains_iff_held p.node).mpr (hs.tree.held_up x p.node hup)
    rcases Step.rowOf?_of_contains s hs p.node hp with ⟨r, hr⟩
    refine ⟨r, hr, ?_⟩
    rw [parentIndex, hup, Option.bind_some, hs.indexForNode_eq, if_pos hp, hr, Option.map_some]

/-- The count and the cells agree for all that is handed out only if no node has a
    child. -/
theorem Sound.all_counted_iff :
    (∀ parent, s.Hands parent → ∀ row column, s.CountsCell row column parent) ↔
      ∀ h, s.children h = [] := by
  constructor
  · intro hall h
    by_contra hne
    have hpos : 0 < (s.children h).length := List.length_pos_iff.mpr hne
    have hh : s.contains h = true := by
      rw [← Bool.not_eq_false]
      exact fun hout => hne (hs.children_of_untracked s h hout)
    rcases hs.hands_typeCell s h hh with ⟨i, hi, hnode, hcolumn⟩
    refine (s.countsCell_iff 0 0 (some i)).mp (hall _ hi 0 0) ⟨i, rfl, ?_, hnode ▸ hpos, ?_⟩
    · rw [hcolumn]
      exact Nat.one_ne_zero
    · exact Nat.two_pos
  · rintro hall parent _ row column
    rw [countsCell_iff]
    rintro ⟨p, _, _, hrow, _⟩
    rw [hall p.node] at hrow
    exact Nat.not_lt_zero row hrow

end Sound

/-- In a record that passes the check, a cell is found exactly if it is counted,
    unless it is asked for under a cell outside the first column and a child is
    there. So all that is handed out is counted right if and only if no node has a
    child. A cell that is found hangs under the cell it was asked for under,
    counted or not. -/
theorem cells_counted_iff (s : Store) (hs : s.check = none) :
    (∀ row column parent, s.CountsCell row column parent ↔ ¬ s.Uncounted row column parent) ∧
      ((∀ parent, s.Hands parent → ∀ row column, s.CountsCell row column parent) ↔
        ∀ h, s.children h = []) ∧
      ∀ row column parent i, s.index row column parent = some i → s.HangsUnder i parent := by
  have hsound := s.check_eq_none_iff_sound.mp hs
  exact ⟨s.countsCell_iff, hsound.all_counted_iff s, hsound.hangsUnder_of_index s⟩

-- Under the type cell of the root no row is counted, but the child is found there.
theorem cells_counted_iff_of_line :
    lineOfThree.check = none ∧ lineOfThree.CountsCell 0 1 (some ⟨0, 0, ⟨2⟩⟩) ∧
      ¬ lineOfThree.CountsCell 0 0 (some ⟨0, 1, ⟨1⟩⟩) ∧
      lineOfThree.HangsUnder ⟨0, 0, ⟨2⟩⟩ (some ⟨0, 1, ⟨1⟩⟩) := by
  have hcheck : lineOfThree.check = none := by decide +kernel
  rcases cells_counted_iff lineOfThree hcheck with ⟨hcounts, _, hhangs⟩
  refine ⟨hcheck, (hcounts 0 1 _).mpr ?_, fun h => (hcounts 0 0 _).mp h ?_,
    hhangs 0 0 _ _ (by decide +kernel)⟩
  · rintro ⟨p, hp, hcolumn, _⟩
    rw [Option.some.injEq] at hp
    exact hcolumn (hp ▸ rfl)
  · exact ⟨⟨0, 1, ⟨1⟩⟩, rfl, by decide, by decide +kernel, by decide⟩

-- The type cell of the root is the second one of the top level.
theorem not_cells_counted_line :
    ¬ ∀ s : Store, s.check = none → ∀ parent, s.Hands parent → ∀ row column,
      s.CountsCell row column parent ∧
        ∀ i, s.index row column parent = some i → s.HangsUnder i parent := by
  intro hall
  have htype : lineOfThree.index 0 1 none = some ⟨0, 1, ⟨1⟩⟩ := by decide +kernel
  have hheld : lineOfThree.Hands (some ⟨0, 1, ⟨1⟩⟩) := htype ▸ .cell 0 1 none .top
  have hcounts := (hall lineOfThree (by decide +kernel) _ hheld 0 0).1
  have hfound : (lineOfThree.index 0 0 (some ⟨0, 1, ⟨1⟩⟩)).isSome = true := by decide +kernel
  have hrow : 0 < lineOfThree.rowCount (some ⟨0, 1, ⟨1⟩⟩) := (hcounts.mp hfound).1
  exact absurd hrow (by decide)

end Store

end TreeWatch
