import TreeWatch.Store.Basic

/-!
# Soundness of a record

A record is sound when its two tables describe one tree below its root. The
check looks at the root, then at every child list, then at every parent link,
each table in handle order, and names the first thing that is wrong.

## Main definitions

* `Violation`: What can be wrong with a record.
* `Violation.message`: The text of a violation.
* `Store.check`: The first violation of a record.
-/

namespace TreeWatch

/-- What can be wrong with a record. -/
inductive Violation where
  /-- The root has a parent. -/
  | rootHasParent (root : Handle)
  /-- A node that is not tracked has a child list. -/
  | untrackedParent (parent : Handle)
  /-- A child list is not strictly ascending. -/
  | unsorted (parent : Handle)
  /-- A listed child has another parent, or none. -/
  | misplaced (child parent : Handle)
  /-- A child is missing in the list of its parent. -/
  | unlisted (child parent : Handle)
  /-- The parents of a node do not lead to the root. -/
  | unreachable (child : Handle)
deriving DecidableEq

namespace Violation

/-- The text of a violation. -/
def message : Violation → String
  | rootHasParent root => "root " ++ root.text ++ " has a parent entry"
  | untrackedParent p => "children recorded for untracked " ++ p.text
  | unsorted p => "children of " ++ p.text ++ " not strictly sorted"
  | misplaced c p => c.text ++ " listed under " ++ p.text ++ " but parent differs"
  | unlisted c p => c.text ++ " has parent " ++ p.text ++ " but is not listed"
  | unreachable c => c.text ++ " is not reachable from the root"

end Violation

namespace Store

/-- Whether a list is strictly ascending, neighbour by neighbour. -/
def strictlyAscending : List Handle → Bool
  | a :: b :: rest => a < b && strictlyAscending (b :: rest)
  | _ => true

/-- The violation of the root, if any. -/
def rootViolation (s : Store) : Option Violation :=
  s.root.bind fun root =>
    if s.parents.contains root then some (.rootHasParent root) else none

/-- The first violation of one child list. -/
def listViolation (s : Store) (parent : Handle) (kids : List Handle) : Option Violation :=
  if !s.contains parent then some (.untrackedParent parent)
  else if !strictlyAscending kids then some (.unsorted parent)
  else (kids.find? fun c => s.parent c ≠ some parent).map (.misplaced · parent)

/-- The first violation of one parent link. -/
def linkViolation (s : Store) (child parent : Handle) : Option Violation :=
  if !(s.children parent).contains child then some (.unlisted child parent)
  else if !s.isReachable child then some (.unreachable child)
  else none

/-- The first violation of a record, or nothing when the record is sound. -/
def check (s : Store) : Option Violation :=
  s.rootViolation
    <|> (s.childLists.toList.findSome? fun e => s.listViolation e.1 e.2)
    <|> (s.parents.toList.findSome? fun e => s.linkViolation e.1 e.2)

end Store

end TreeWatch
