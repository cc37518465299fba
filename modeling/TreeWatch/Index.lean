import TreeWatch.Handle

/-!
# Cell addresses

The tree is shown as a grid: the children of a node are the rows under it, and
each row has two columns. An index addresses one cell. It is meant to be used
until the next structural event and no longer.

## Main definitions

* `Index`: The address of a cell.
* `Index.ofRow`: The first cell of a row.
* `columnCount`: The number of columns.
-/

namespace TreeWatch

/-- The number of columns: the node and its type. -/
def columnCount : Nat := 2

/-- The address of a cell: its row under the parent, its column, and the node
    the row shows. -/
structure Index where
  row : Nat
  column : Nat
  node : Handle
deriving DecidableEq

namespace Index

/-- The first cell of the row that shows `node`. -/
def ofRow (row : Nat) (node : Handle) : Index := ⟨row, 0, node⟩

end Index

end TreeWatch
