import TreeWatch.Index
import TreeWatch.Store.Basic

/-!
# The grid of a record

The rows and cells a consumer sees. The invisible top level has one row, the
root; the rows under a node are its recorded children, and only its first cell
has rows below it.

## Main definitions

* `Store.rowCount`: The number of rows under a cell.
* `Store.index`: The cell at a row and a column.
* `Store.indexForNode`: The first cell of a node's row.
* `Store.parentIndex`: The cell that a row hangs from.
* `Store.shape`: The whole grid, walked from the top level.
-/

namespace TreeWatch

namespace Store

/-- The number of rows under a cell, or at the top level. -/
def rowCount (s : Store) : Option Index → Nat
  | none => if s.root.isSome then 1 else 0
  | some i => if i.column ≠ 0 then 0 else (s.children i.node).length

/-- The cell at a row and a column under a cell, or at the top level. -/
def index (s : Store) (row column : Nat) (parent : Option Index) : Option Index :=
  if columnCount ≤ column then none
  else
    let node := match parent with
      | none => if row = 0 then s.root else none
      | some i => (s.children i.node)[row]?
    node.map (⟨row, column, ·⟩)

/-- The first cell of the row of a node, provided that its parent has one, for
    at most `bound` ancestors. -/
def indexWithin (s : Store) : Nat → Handle → Option Index
  | bound, h =>
    if s.root = some h then some (Index.ofRow 0 h)
    else match s.parent h with
      | none => none
      | some p =>
        match bound with
        | 0 => none
        | bound + 1 =>
          match indexWithin s bound p with
          | none => none
          | some _ => ((s.children p).idxOf? h).map (Index.ofRow · h)

/-- The first cell of the row of a node, if the node can be reached in the
    grid. A node has at most as many ancestors as there are parent links. -/
def indexForNode (s : Store) (h : Handle) : Option Index := s.indexWithin s.parents.size h

/-- The cell that the row of `i` hangs from, none for a row of the top level
    and for an unknown node. -/
def parentIndex (s : Store) (i : Index) : Option Index :=
  (s.parent i.node).bind s.indexForNode

/-- The first cells of all rows under a cell, in order. -/
def rowsUnder (s : Store) (i : Index) : List Index :=
  (List.range (s.rowCount (some i))).filterMap fun row => s.index row 0 (some i)

/-- Note the children shown under each cell of the stack and under all cells
    below, visiting at most `bound` cells. -/
def survey (s : Store) : Nat → List Index → HandleMap (List Handle) → HandleMap (List Handle)
  | 0, _, seen => seen
  | _ + 1, [], seen => seen
  | bound + 1, i :: rest, seen =>
    let rows := s.rowsUnder i
    survey s bound (rows.reverse ++ rest) (seen.insert i.node (rows.map Index.node))

/-- Note the children shown under one cell and under all cells below it. -/
def surveyFrom (s : Store) (i : Index) (seen : HandleMap (List Handle)) :
    HandleMap (List Handle) :=
  s.survey (s.parents.size + 1) [i] seen

/-- The whole grid: each node shown with the children shown under it. -/
def shape (s : Store) : HandleMap (List Handle) :=
  match s.index 0 0 none with
  | none => ∅
  | some top => s.surveyFrom top ∅

end Store

end TreeWatch
