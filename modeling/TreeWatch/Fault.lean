import TreeWatch.Handle
import TreeWatch.Text.Number

/-!
# Faults

What ends an operation on the spot. A fault is a broken precondition of the
record, a record that differs from the capture after a strict pass, a count that
leaves the range of a machine word, a place that a table does not have, or an
instant that the clock does not have. Nothing of the operation that ended in a
fault is kept.

## Main definitions

* `Fault`: The causes.
* `Fault.message`: The text of a cause.
* `addCounts`, `subtractCounts`: Arithmetic of counts that stays in the range of
  a machine word.
-/

namespace TreeWatch

/-- Why an operation ended on the spot. -/
inductive Fault where
  /-- A node was to be recorded under a parent that is not tracked. -/
  | untrackedParent (parent : Handle)
  /-- A node was to be recorded a second time. -/
  | alreadyTracked (node : Handle)
  /-- A node was to be attached that has a recorded parent. -/
  | alreadyAttached (node : Handle)
  /-- The rows of a batch did not end up next to each other. -/
  | scatteredRows
  /-- After a pass the recorded children of a node are not its live ones. -/
  | diverged (node : Handle) (expected recorded : List Handle)
  /-- A sum does not fit a machine word. -/
  | sumTooLarge
  /-- A difference would be negative. -/
  | negativeDifference
  /-- A table of `size` places was asked for another one. -/
  | indexOutOfRange (index size : Nat)
  /-- A delay ends after the last instant of the clock. -/
  | instantTooLate
deriving DecidableEq

namespace Fault

/-- The text of a fault. -/
def message : Fault → String
  | untrackedParent p => "insert under untracked parent " ++ p.text
  | alreadyTracked h => "insert of already tracked handle " ++ h.text
  | alreadyAttached h => "attach of attached handle " ++ h.text
  | scatteredRows => "assertion \x60left == right\x60 failed: inserted rows are not contiguous"
  | diverged node expected recorded =>
    "children of " ++ node.text ++ " diverged after diff: expected " ++
      Handle.debugList expected ++ ", recorded " ++ Handle.debugList recorded
  | sumTooLarge => "attempt to add with overflow"
  | negativeDifference => "attempt to subtract with overflow"
  | indexOutOfRange index size =>
    "index out of bounds: the len is " ++ Nat.repr size ++ " but the index is " ++ Nat.repr index
  | instantTooLate => "overflow when adding duration to instant"

end Fault

/-- The sum of two counts, as long as it fits a machine word. -/
def addCounts (a b : Nat) : Except Fault Nat :=
  if a + b < Text.wordBound then .ok (a + b) else .error .sumTooLarge

/-- The difference of two counts, as long as it is not negative. -/
def subtractCounts (a b : Nat) : Except Fault Nat :=
  if b ≤ a then .ok (a - b) else .error .negativeDifference

end TreeWatch
