import TreeWatch.Fault
import TreeWatch.Forest

/-!
# The record

The record keeps, for every tracked node, its parent and its children. Child
lists are in handle order, so the row of a node is its place in that order and
two child lists can be compared by one sweep over both.

Nothing here announces a change. The mutators keep the two tables together:
a child is listed under its recorded parent and nowhere else.

## Main definitions

* `Store`: The record.
* `Store.contains`, `Store.parent`, `Store.children`: What is recorded.
* `Store.rowOf?`, `Store.insertionRow`: The row a node has, or would have.
* `Store.insert`: Record a new node.
* `Store.detach`, `Store.attach`: Take a subtree out and put it in again.
* `Store.remove`, `Store.removeChildren`: Forget a subtree.
* `Store.isReachable`: Whether the recorded links lead to the root.

## Theorems

* `Store.contains_iff`: A node is tracked when it is the root or has a parent.
* `Store.parent_empty`: Nothing has a parent in the empty record.
-/

namespace TreeWatch

/-- The recorded tree: its root, the parent of every other node, and the
    children of every node that has some. -/
structure Store where
  root : Option Handle := none
  parents : HandleMap Handle := ∅
  childLists : HandleMap (List Handle) := ∅
deriving DecidableEq

namespace Store

/-- The record that tracks nothing. -/
def empty : Store := {}

/-- The record of a lone root, or of nothing. -/
def ofRoot (root : Option Handle) : Store := { root := root }

/-- The number of tracked nodes, the root included. -/
def size (s : Store) : Nat := s.parents.size + if s.root.isSome then 1 else 0

/-- Whether nothing is tracked. -/
def isEmpty (s : Store) : Bool := s.root.isNone

/-- Whether a node is tracked anywhere. -/
def contains (s : Store) (h : Handle) : Bool := s.root = some h || s.parents.contains h

/-- The recorded parent. The root and unknown handles have none. -/
def parent (s : Store) (h : Handle) : Option Handle := s.parents[h]?

/-- The recorded children in handle order. -/
def children (s : Store) (h : Handle) : List Handle := Forest.kids s.childLists h

/-- The row of a node under its parent. The root is row 0 of the top level. -/
def rowOf? (s : Store) (h : Handle) : Option Nat :=
  if s.root = some h then some 0
  else (s.parent h).bind fun p => (s.children p).idxOf? h

/-- The row a node would have under `parent`. -/
def insertionRow (s : Store) (parent h : Handle) : Nat := h.insertionRow (s.children parent)

/-- Record `h` under `parent`, whatever is recorded so far. -/
def link (s : Store) (parent h : Handle) : Store :=
  { s with
    parents := s.parents.insert h parent
    childLists := s.childLists.insert parent (h.insertInto (s.children parent)) }

/-- Record a new node under a tracked parent. The result is its row. -/
def insert (s : Store) (parent h : Handle) : Except Fault (Nat × Store) :=
  if !s.contains parent then .error (.untrackedParent parent)
  else if s.contains h then .error (.alreadyTracked h)
  else .ok (s.insertionRow parent h, s.link parent h)

/-- Take a node out of its parent's list and keep what is recorded below it.
    The result is the parent and the row it had. The root stays where it
    is. -/
def detach (s : Store) (h : Handle) : Option (Handle × Nat) × Store :=
  match s.parent h with
  | none => (none, s)
  | some p =>
    let row := (s.children p).idxOf? h
    let kids := (s.children p).erase h
    (row.map (p, ·),
      { s with
        parents := s.parents.erase h
        childLists :=
          if kids.isEmpty then s.childLists.erase p else s.childLists.insert p kids })

/-- Put a detached node with all below it under `parent`. The result is its
    row. -/
def attach (s : Store) (parent h : Handle) : Except Fault (Nat × Store) :=
  if s.parents.contains h then .error (.alreadyAttached h)
  else .ok (s.insertionRow parent h, s.link parent h)

/-- The nodes recorded below `h` in pre-order, without `h` itself. -/
def descendants (s : Store) (h : Handle) : List Handle :=
  Forest.preorder s.children s.parents.size (s.children h)

/-- Drop the subtrees of `roots`, which nothing lists any more: all their child
    lists and parent links. The result is the dropped nodes in pre-order. -/
def prune (s : Store) (roots : List Handle) : List Handle × Store :=
  let (dropped, left) := Forest.uproot roots s.childLists
  (dropped, { s with parents := dropped.foldl (·.erase ·) s.parents, childLists := left })

/-- Forget a node and all below it. The result is the forgotten nodes in
    pre-order, none for an unknown handle. Without its root the record is
    empty. -/
def remove (s : Store) (h : Handle) : List Handle × Store :=
  if !s.contains h then ([], s)
  else if s.root = some h then (h :: s.descendants h, empty)
  else (s.detach h).2.prune [h]

/-- Forget everything below a node and keep the node. The result is the
    forgotten nodes in pre-order. -/
def removeChildren (s : Store) (h : Handle) : List Handle × Store :=
  { s with childLists := s.childLists.erase h }.prune (s.children h)

/-- Follow the recorded parents from `h`, each confirmed by the list of the
    parent, for at most `bound` steps. -/
def climbs (s : Store) (root : Handle) : Nat → Handle → Bool
  | bound, h =>
    if h = root then true
    else match s.parent h with
      | none => false
      | some p =>
        if (s.children p).contains h then
          match bound with
          | 0 => false
          | bound + 1 => climbs s root bound p
        else false

/-- Whether the recorded parents lead from `h` to the root. A path without
    repetition has at most as many steps as there are parent links. -/
def isReachable (s : Store) (h : Handle) : Bool :=
  match s.root with
  | none => false
  | some root => s.climbs root s.parents.size h

theorem contains_iff (s : Store) (h : Handle) :
    s.contains h = true ↔ s.root = some h ∨ ∃ p, s.parent h = some p := by
  simp only [contains, parent, Bool.or_eq_true, decide_eq_true_eq,
    Std.ExtTreeMap.contains_eq_isSome_getElem?, Option.isSome_iff_exists]

@[simp] theorem parent_empty (h : Handle) : empty.parent h = none := by
  simp [empty, parent]

end Store

end TreeWatch
