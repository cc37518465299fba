import TreeWatch.Flags
import TreeWatch.Index

/-!
# Events

The announcements a consumer of the model receives. Each structural change is
announced twice, before it with the old grid still shown and after it with the
new one. An absent parent stands for the invisible top level, whose only row is
the root.

## Main definitions

* `Event`: An announcement.
* `Event.isStructural`: Whether the shape of the grid changes.
-/

namespace TreeWatch

/-- An announcement to the consumers of the model. -/
inductive Event where
  /-- The rows from `first` to `last` are about to go away. -/
  | rowsAboutToBeRemoved (parent : Option Index) (first last : Nat)
  /-- The rows from `first` to `last` are gone. -/
  | rowsRemoved (parent : Option Index) (first last : Nat)
  /-- Rows are about to appear and will take the numbers `first` to `last`. -/
  | rowsAboutToBeInserted (parent : Option Index) (first last : Nat)
  /-- The rows from `first` to `last` are there, with all below them. -/
  | rowsInserted (parent : Option Index) (first last : Nat)
  /-- The whole model is about to be replaced. -/
  | modelAboutToBeReset
  /-- The whole model was replaced. -/
  | modelReset
  /-- Attributes of one row changed, in all columns up to `lastColumn`. -/
  | dataChanged (index : Index) (lastColumn : Nat) (kinds : Attributes)
  /-- The node behind a handle does not exist any more. -/
  | nodeDeleted (node : Handle)
deriving DecidableEq

namespace Event

/-- Whether the event announces a change of the shape of the grid. -/
def isStructural : Event → Bool
  | dataChanged _ _ _ => false
  | nodeDeleted _ => false
  | _ => true

end Event

end TreeWatch
