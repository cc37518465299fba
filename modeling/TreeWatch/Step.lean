import TreeWatch.Event
import TreeWatch.Report
import TreeWatch.Snapshot
import TreeWatch.Store.Grid

/-!
# Steps

One step of bringing the record up to date: the record as it changes, what has
been announced so far, and the report that is being made. The functions here
are the only ones that change a record and announce it, so each pair of events
encloses exactly one change.

An announcement carries the record of its moment, because that is what a
consumer sees when it arrives.

The row of a parent is looked up once and then remembered. A remembered row is
used as long as the node still sits at it, so edits under one parent cost one
search between them unless its own row shifts.

## Main definitions

* `Notice`: An event and the record shown with it.
* `Step`: A step in progress.
* `Step.removeRows`, `Step.removeNode`: Announced removals.
* `Step.insertRows`: An announced insertion of a batch.
* `Step.relocate`: A removal and an insertion of one subtree.
* `Step.evictTracked`: Removal of whatever is tracked below new nodes.
* `Step.reset`: The replacement of the whole model.
-/

namespace TreeWatch

/-- An announced event together with the record at that moment. -/
structure Notice where
  event : Event
  store : Store
deriving DecidableEq

namespace Store

/-- Whether the node sits at `row`: the root at row 0, any other node at that
    place in the list of its parent. -/
def sitsAt (s : Store) (h : Handle) (row : Nat) : Bool :=
  if s.root = some h then row = 0
  else match s.parent h with
    | none => false
    | some p => (s.children p)[row]? = some h

/-- Forget several nodes one after the other, each with all below it. The
    result is the forgotten nodes in order. -/
def removeAll (s : Store) (victims : List Handle) : List Handle × Store :=
  victims.foldl
    (fun acc h =>
      let (pruned, s) := acc.2.remove h
      (acc.1 ++ pruned, s))
    ([], s)

/-- Record what `fill` shows below `h`, in pre-order. A node that is tracked
    already is passed over, and so is one whose parent is not tracked. -/
def populate (s : Store) (h : Handle) (fill : Snapshot) : Store :=
  (fill.descendants h).foldl
    (fun s node =>
      match fill.parent node with
      | none => s
      | some p => if !s.contains node && s.contains p then s.link p node else s)
    s

/-- Record each of the handles under `parent`, with all that `fill` shows below
    it. -/
def insertFilled (s : Store) (parent : Handle) (handles : List Handle) (fill : Snapshot) :
    Except Fault Store :=
  handles.foldlM
    (fun s h => do
      let (_, s) ← s.insert parent h
      return s.populate h fill)
    s

end Store

/-- A step in progress: the record, the report so far, the remembered rows of
    parents, how many rows were searched for, and what was announced. -/
structure Step where
  store : Store
  report : Report := {}
  rows : HandleMap Nat := ∅
  lookups : Nat := 0
  trace : List Notice := []

namespace Step

/-- Announce an event with the record as it is. -/
def emit (s : Step) (e : Event) : Step := { s with trace := s.trace ++ [⟨e, s.store⟩] }

/-- Add an edit to the script of the report. -/
def note (s : Step) (e : Edit) : Step :=
  { s with report := { s.report with script := s.report.script ++ [e] } }

/-- The cell of a parent whose rows are edited, none if it has no row. -/
def parentIndex (s : Step) (parent : Handle) : Option Index × Step :=
  match s.rows[parent]?.filter (s.store.sitsAt parent) with
  | some row => (some (Index.ofRow row parent), s)
  | none =>
    let s := { s with lookups := s.lookups + 1 }
    match s.store.rowOf? parent with
    | some row => (some (Index.ofRow row parent), { s with rows := s.rows.insert parent row })
    | none => (none, { s with rows := s.rows.erase parent })

/-- Announce the deletion of those of the forgotten nodes that are neither
    tracked again nor alive. -/
def announceDeleted (isAlive : Handle → Bool) (s : Step) (pruned : List Handle) : Step :=
  let gone := pruned.filter fun h => !s.store.contains h && !isAlive h
  { s with
    trace := s.trace ++ gone.map fun h => ⟨.nodeDeleted h, s.store⟩
    report := { s.report with deleted := s.report.deleted + gone.length } }

/-- Remove the rows from `first` to `last` under `parent`. Rows that do not
    exist are left alone; a range that ends just in front of its start is empty
    and has no row count. -/
def removeRows (isAlive : Handle → Bool) (s : Step) (parent : Handle) (first last : Nat) :
    Except Fault Step :=
  let kids := s.store.children parent
  if first ≤ last + 1 ∧ last + 1 ≤ kids.length then do
    let victims := (kids.drop first).take (last + 1 - first)
    let (under, s) := s.parentIndex parent
    let s := s.emit (.rowsAboutToBeRemoved under first last)
    let (pruned, store) := s.store.removeAll victims
    let s := { s with store := store }.emit (.rowsRemoved under first last)
    let edit := Edit.remove parent first last
    let s := s.note edit
    let s := { s with report := { s.report with removed := s.report.removed + (← edit.rowCount) } }
    return s.announceDeleted isAlive pruned
  else .ok s

/-- Remove a tracked node from wherever it sits. The answer says whether it had
    a row to be removed from; the root has none. -/
def removeNode (isAlive : Handle → Bool) (s : Step) (h : Handle) : Except Fault (Bool × Step) :=
  match s.store.parent h, s.store.rowOf? h with
  | some parent, some row => do return (true, ← s.removeRows isAlive parent row row)
  | _, _ => .ok (false, s)

/-- Insert a batch under `parent` from row `first` on, each node with all that
    `fill` shows below it. The batch has to be ascending and to fit between its
    neighbours, so that its rows end up next to each other. -/
def insertRows (s : Step) (parent : Handle) (first : Nat) (handles : List Handle)
    (fill : Snapshot) : Except Fault Step :=
  if handles.isEmpty then .ok s
  else do
    let last := (← addCounts first handles.length) - 1
    let (under, s) := s.parentIndex parent
    let s := s.emit (.rowsAboutToBeInserted under first last)
    let store ← s.store.insertFilled parent handles fill
    if ((store.children parent).drop first).take handles.length ≠ handles then
      throw .scatteredRows
    let s := { s with store := store }.emit (.rowsInserted under first last)
    let s := s.note (.insert parent first handles)
    return { s with report := { s.report with inserted := s.report.inserted + handles.length } }

/-- Move a tracked node with all below it under `parent`, announced as a
    removal and an insertion. The answer says whether it had a row to be moved
    from. -/
def relocate (s : Step) (h parent : Handle) : Except Fault (Bool × Step) :=
  match s.store.parent h, s.store.rowOf? h with
  | some source, some oldRow => do
    let (under, s) := s.parentIndex source
    let s := s.emit (.rowsAboutToBeRemoved under oldRow oldRow)
    let s := { s with store := (s.store.detach h).2 }
    let s := s.emit (.rowsRemoved under oldRow oldRow)
    let s := s.note (.remove source oldRow oldRow)
    let row := s.store.insertionRow parent h
    let (under, s) := s.parentIndex parent
    let s := s.emit (.rowsAboutToBeInserted under row row)
    let (_, store) ← s.store.attach parent h
    let s := { s with store := store }.emit (.rowsInserted under row row)
    let s := s.note (.insert parent row [h])
    let report := { s.report with
      removed := s.report.removed + 1
      inserted := s.report.inserted + 1
      relocated := s.report.relocated + 1 }
    return (true, { s with report := report })
  | _, _ => .ok (false, s)

/-- Remove every tracked node that `fill` shows below one of `roots`. The
    answer says whether anything was removed. -/
def evictTracked (isAlive : Handle → Bool) (s : Step) (roots : List Handle) (fill : Snapshot) :
    Except Fault (Bool × Step) :=
  (roots.flatMap fill.descendants).foldlM
    (fun acc h =>
      if acc.2.store.contains h then do
        let (removed, s) ← acc.2.removeNode isAlive h
        if removed then
          let report := { s.report with relocated := s.report.relocated + 1 }
          return (true, { s with report := report })
        else return (acc.1, s)
      else .ok acc)
    (false, s)

/-- Replace the whole model by `root` and what `fill` shows below it. -/
def reset (isAlive : Handle → Bool) (s : Step) (root : Option Handle) (fill : Snapshot) : Step :=
  let previous := match s.store.root with
    | none => []
    | some old => old :: s.store.descendants old
  let s := s.emit .modelAboutToBeReset
  let fresh := Store.ofRoot root
  let store := match root with
    | none => fresh
    | some r => fresh.populate r fill
  let s := { s with store := store }.emit .modelReset
  let s := { s with report := { s.report with reset := true } }
  s.announceDeleted isAlive previous

/-- Report a condition that was met and dealt with. -/
def recover (s : Step) (c : Condition) : Step :=
  { s with report := { s.report with recovered := s.report.recovered ++ [c] } }

/-- Ask for a full pass. -/
def requestResync (s : Step) : Step :=
  { s with report := { s.report with resyncRequested := true } }

end Step

end TreeWatch
