import TreeWatch.Condition
import TreeWatch.Edit

/-!
# Reports

What one step did, counted: its edits, how many rows went and came, how many
nodes moved, how many deletions were announced, and what was met on the way.

## Main definitions

* `Report`: The outcome of a step.
* `Report.isNoop`: Whether the grid kept its shape.
* `Report.merge`: Two reports as one.
* `Report.mergeCounted`: The same for counts of any origin, which may leave the
  range of a machine word together.
-/

namespace TreeWatch

/-- The outcome of a step. `removed` and `inserted` count the rows of the
    batches, not what lies below them. -/
structure Report where
  script : Script := []
  removed : Nat := 0
  inserted : Nat := 0
  relocated : Nat := 0
  deleted : Nat := 0
  reset : Bool := false
  resyncRequested : Bool := false
  recovered : List Condition := []
deriving DecidableEq

namespace Report

/-- Whether the step left the grid as it was. -/
def isNoop (r : Report) : Bool := r.script.isEmpty && !r.reset

/-- The report of a step followed by another. -/
def merge (a b : Report) : Report where
  script := a.script ++ b.script
  removed := a.removed + b.removed
  inserted := a.inserted + b.inserted
  relocated := a.relocated + b.relocated
  deleted := a.deleted + b.deleted
  reset := a.reset || b.reset
  resyncRequested := a.resyncRequested || b.resyncRequested
  recovered := a.recovered ++ b.recovered

/-- `merge`, provided that every count of the result fits a machine word. -/
def mergeCounted (a b : Report) : Except Fault Report := do
  let _ ← addCounts a.removed b.removed
  let _ ← addCounts a.inserted b.inserted
  let _ ← addCounts a.relocated b.relocated
  let _ ← addCounts a.deleted b.deleted
  return a.merge b

end Report

end TreeWatch
