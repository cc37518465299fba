import TreeWatch.Event
import TreeWatch.Step

/-!
# Replicas

A consumer that keeps a copy of the grid. It never reads the record itself: it
applies the announcements one after the other with row numbers of its own, and
reads from the grid it is shown only what an announcement says is new. If rows
are ever announced that were right at some other moment, the copy and the grid
drift apart, and that is noted.

## Main definitions

* `Mismatch`: An announcement that did not fit the copy.
* `Replica`: The copy and what was noted.
* `Replica.apply`: One announcement applied.
* `Replica.observe`: A whole trace applied.
* `Replica.matchesGrid`: Whether the copy shows the same tree as a record.
-/

namespace TreeWatch

/-- An announcement that did not fit the copy. -/
inductive Mismatch where
  /-- A row to be removed is not the same in the copy and in the grid. -/
  | rowDiffers (row : Nat) (mine theirs : Option Handle)
  /-- Rows were removed under a node without a list. -/
  | removalUnderUnknown (parent : Handle)
  /-- Rows were removed that the list does not have. -/
  | removalOutside (first last count : Nat)
  /-- An inserted row is not in the grid. -/
  | rowMissing (row : Nat)
  /-- Rows were inserted under a node without a list. -/
  | insertionUnderUnknown (parent : Handle)
  /-- Rows were inserted behind the end of the list. -/
  | insertionPastEnd (row count : Nat)
deriving DecidableEq

namespace Mismatch

/-- The text of a mismatch. -/
def message : Mismatch → String
  | rowDiffers row mine theirs =>
    "row " ++ Nat.repr row ++ " about to be removed: replica " ++ Handle.debugOption mine ++
      ", model " ++ Handle.debugOption theirs
  | removalUnderUnknown p => "remove under unknown parent " ++ p.text
  | removalOutside first last count =>
    "remove rows " ++ Nat.repr first ++ "..=" ++ Nat.repr last ++ " of " ++ Nat.repr count
  | rowMissing row => "inserted row " ++ Nat.repr row ++ " not in model"
  | insertionUnderUnknown p => "insert under unknown parent " ++ p.text
  | insertionPastEnd row count =>
    "insert at row " ++ Nat.repr row ++ " past end " ++ Nat.repr count

end Mismatch

/-- A copy of the grid, with all that was announced. -/
structure Replica where
  root : Option Handle := none
  childLists : HandleMap (List Handle) := ∅
  deleted : HandleSet := ∅
  dataChanges : Nat := 0
  resets : Nat := 0
  events : Array Event := #[]
  mismatches : List Mismatch := []

namespace Replica

/-- Note a mismatch. -/
def note (r : Replica) (m : Mismatch) : Replica := { r with mismatches := r.mismatches ++ [m] }

/-- The rows the copy has under a cell, or at the top level. -/
def rows (r : Replica) : Option Index → List Handle
  | none => r.root.toList
  | some i => Forest.kids r.childLists i.node

/-- The row numbers from `first` to `last`. -/
def span (first last : Nat) : List Nat :=
  (List.range (last + 1 - first)).map (first + ·)

/-- Before a removal the grid still shows the old rows, and they must be
    those of the copy. -/
def checkRows (r : Replica) (grid : Store) (parent : Option Index) (first last : Nat) : Replica :=
  (span first last).foldl
    (fun acc row =>
      let mine := (r.rows parent)[row]?
      let theirs := (grid.index row 0 parent).map Index.node
      if mine.isNone || mine ≠ theirs then acc.note (.rowDiffers row mine theirs) else acc)
    r

/-- Drop the lists of some nodes and of all below them. -/
def forget (r : Replica) (nodes : List Handle) : Replica :=
  { r with childLists := (Forest.uproot nodes r.childLists).2 }

/-- Rows are gone. Without a parent it is the root that is gone. -/
def removeRows (r : Replica) (parent : Option Index) (first last : Nat) : Replica :=
  match parent with
  | none => { r.forget r.root.toList with root := none }
  | some i =>
    match r.childLists[i.node]? with
    | none => r.note (.removalUnderUnknown i.node)
    | some list =>
      if list.length ≤ last || last < first then
        r.note (.removalOutside first last list.length)
      else
        let gone := (list.drop first).take (last + 1 - first)
        let kept := list.take first ++ list.drop (last + 1)
        { r with childLists := r.childLists.insert i.node kept }.forget gone

/-- Take over what the grid shows under some cells. -/
def adopt (r : Replica) (grid : Store) (tops : List Index) : Replica :=
  { r with childLists := tops.foldl (fun seen i => grid.surveyFrom i seen) r.childLists }

/-- Rows are there. The copy takes them and all below them from the grid. -/
def insertRows (r : Replica) (grid : Store) (parent : Option Index) (first last : Nat) :
    Replica :=
  let shown := (span first last).map fun row => (row, grid.index row 0 parent)
  let r := shown.foldl (fun r e => if e.2.isNone then r.note (.rowMissing e.1) else r) r
  let fresh := shown.filterMap Prod.snd
  match parent with
  | none =>
    let root := match fresh with
      | [] => r.root
      | i :: _ => some i.node
    { r with root := root }.adopt grid fresh
  | some i =>
    match r.childLists[i.node]? with
    | none => r.note (.insertionUnderUnknown i.node)
    | some list =>
      if list.length < first then r.note (.insertionPastEnd first list.length)
      else
        let list := list.take first ++ fresh.map Index.node ++ list.drop first
        { r with childLists := r.childLists.insert i.node list }.adopt grid fresh

/-- Everything was replaced: start again from the grid. -/
def rebuild (r : Replica) (grid : Store) : Replica :=
  { r with childLists := grid.shape, root := (grid.index 0 0 none).map Index.node }

/-- Apply one announcement, shown with a grid. -/
def apply (r : Replica) (e : Event) (grid : Store) : Replica :=
  let r := { r with events := r.events.push e }
  match e with
  | .modelAboutToBeReset => r
  | .modelReset => { r with resets := r.resets + 1 }.rebuild grid
  | .rowsAboutToBeRemoved parent first last => r.checkRows grid parent first last
  | .rowsRemoved parent first last => r.removeRows parent first last
  | .rowsAboutToBeInserted parent first _ =>
    let count := (r.rows parent).length
    if count < first then r.note (.insertionPastEnd first count) else r
  | .rowsInserted parent first last => r.insertRows grid parent first last
  | .dataChanged _ _ _ => { r with dataChanges := r.dataChanges + 1 }
  | .nodeDeleted node => { r with deleted := r.deleted.insert node }

/-- Apply announcements in order, each with the record of its moment. -/
def observe (r : Replica) (trace : List Notice) : Replica :=
  trace.foldl (fun r n => r.apply n.event n.store) r

/-- Whether the copy shows the same tree as the grid of a record. -/
def matchesGrid (r : Replica) (grid : Store) : Bool :=
  r.root = (grid.index 0 0 none).map Index.node && r.childLists = grid.shape

end Replica

end TreeWatch
