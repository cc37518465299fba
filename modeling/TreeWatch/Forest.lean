import TreeWatch.Handle

/-!
# Walks over child lists

Two walks that every tree of this library shares, whatever table its child
lists come from. Both keep the nodes still to be visited in a list and take as
an argument how many nodes they may visit; a caller passes the number of nodes
there are, so on a tree the walk is never cut short.

## Main definitions

* `Forest.preorder`: The nodes of a forest, each before what lies below it.
* `Forest.uproot`: The same walk over a table of child lists, which loses each
  list as its node is visited. It ends on any table, loops included.

## Theorems

* `Forest.preorder_nil`: Walking no tree visits nothing.
* `Forest.preorder_cons`: A walk visits the first root, then its children,
  then the other roots.
-/

namespace TreeWatch

namespace Forest

/-- The nodes below and including `roots`, each in front of what lies below
    it, siblings in the order of their list. At most `bound` nodes are
    visited. -/
def preorder (children : Handle → List Handle) : Nat → List Handle → List Handle
  | 0, _ => []
  | _ + 1, [] => []
  | bound + 1, h :: rest => h :: preorder children bound (children h ++ rest)

theorem preorder_nil (children : Handle → List Handle) (bound : Nat) :
    preorder children bound [] = [] := by
  cases bound <;> rfl

theorem preorder_cons (children : Handle → List Handle) (bound : Nat) (h : Handle)
    (rest : List Handle) :
    preorder children (bound + 1) (h :: rest) =
      h :: preorder children bound (children h ++ rest) :=
  rfl

/-- The child list of a node in a table; a node without an entry has none. -/
def kids (table : HandleMap (List Handle)) (h : Handle) : List Handle := table.getD h []

/-- The number of entries of all child lists of a table together. -/
def entryCount (table : HandleMap (List Handle)) : Nat :=
  table.foldl (fun n _ kids => n + kids.length) 0

/-- Walk the trees under `roots` in pre-order and drop the child list of each
    node that is visited. The result is the nodes visited and what is left of
    the table. -/
def uprootWithin : Nat → List Handle → HandleMap (List Handle) →
    List Handle × HandleMap (List Handle)
  | 0, _, table => ([], table)
  | _ + 1, [], table => ([], table)
  | bound + 1, h :: rest, table =>
    let (visited, left) := uprootWithin bound (kids table h ++ rest) (table.erase h)
    (h :: visited, left)

/-- Walk the trees under `roots` and drop all their child lists. Each entry of
    a list is visited at most once, so the entries bound the walk. -/
def uproot (roots : List Handle) (table : HandleMap (List Handle)) :
    List Handle × HandleMap (List Handle) :=
  uprootWithin (roots.length + entryCount table) roots table

end Forest

end TreeWatch
