import TreeWatch.Fault

/-!
# Edit scripts

What a step did to the record, as removals and insertions of rows in the order
they were announced. There is no move: a node that changes its parent is
removed at the old place and inserted at the new one.

## Main definitions

* `Edit`: A removal or an insertion of consecutive rows.
* `Edit.rowCount`: The number of rows an edit touches.
* `Script`: The edits of a step.
* `Script.removedRows`, `Script.insertedRows`: The rows a script takes and
  gives.
-/

namespace TreeWatch

/-- One structural edit. -/
inductive Edit where
  /-- The rows from `first` to `last` under `parent` went away. -/
  | remove (parent : Handle) (first last : Nat)
  /-- The handles appeared under `parent`, the first of them at row `first`. -/
  | insert (parent : Handle) (first : Nat) (handles : List Handle)
deriving DecidableEq

namespace Edit

/-- The node whose rows are edited. -/
def parent : Edit → Handle
  | remove p _ _ => p
  | insert p _ _ => p

/-- Whether the edit takes rows away. -/
def isRemove : Edit → Bool
  | remove _ _ _ => true
  | insert _ _ _ => false

/-- The number of rows the edit touches. For a removal this is one more than
    the distance of its rows, so rows in the wrong order have no count. -/
def rowCount : Edit → Except Fault Nat
  | remove _ first last => do addCounts (← subtractCounts last first) 1
  | insert _ _ handles => .ok handles.length

end Edit

/-- The edits of a step, in the order they were announced. -/
abbrev Script := List Edit

namespace Script

/-- The sum of the row counts of some edits. -/
def rowSum (edits : List Edit) : Except Fault Nat :=
  edits.foldlM (fun n e => do addCounts n (← e.rowCount)) 0

/-- The number of rows that the removals of a script take away. -/
def removedRows (s : Script) : Except Fault Nat := rowSum (s.filter Edit.isRemove)

/-- The number of rows that the insertions of a script add. -/
def insertedRows (s : Script) : Except Fault Nat := rowSum (s.filter fun e => !e.isRemove)

end Script

end TreeWatch
