import TreeWatch.Handle

/-!
# Conditions

Troubles that are dealt with where they arise and then reported: a handle that
leads nowhere, a root that was replaced, a record that had to be derived again,
a queue that nobody reads.

## Main definitions

* `Condition`: The conditions.
* `Condition.message`: The text of a condition.
-/

namespace TreeWatch

/-- A trouble that was met and dealt with. -/
inductive Condition where
  /-- The handle does not lead to a live, tracked node. -/
  | staleHandle (node : Handle)
  /-- The root changed and the model was replaced. -/
  | rootReplaced (previous current : Option Handle)
  /-- The recorded children of `node` were not the live ones: `expected` were
      live, `actual` were recorded. -/
  | inconsistentSnapshot (node : Handle) (expected actual : Nat)
  /-- The other end of the task queue is gone. -/
  | disconnected
deriving DecidableEq

namespace Condition

/-- A root inside a text. -/
def rootText : Option Handle → String
  | none => "none"
  | some h => h.text

/-- The text of a condition. -/
def message : Condition → String
  | staleHandle h => "stale handle " ++ h.text
  | rootReplaced previous current =>
    "root replaced: " ++ rootText previous ++ " -> " ++ rootText current
  | inconsistentSnapshot node expected actual =>
    "inconsistent snapshot under " ++ node.text ++ ": expected " ++ Nat.repr expected ++
      " children, recorded " ++ Nat.repr actual
  | disconnected => "mirror task queue disconnected"

end Condition

end TreeWatch
