import TreeWatch.Source
import TreeWatch.Store.Basic

/-!
# Validity of handles

A consumer may hold a handle across steps. Before the handle is trusted again,
the record is climbed from it to the root and, unless that is switched off, its
place is compared with the live tree.

## Main definitions

* `Validity`: What is known about a handle.
* `Validity.ofHandle`: The validity of a handle for a record and a source.
-/

namespace TreeWatch

/-- What is known about a handle that a consumer held. -/
inductive Validity where
  | valid
  /-- The record does not track it. -/
  | untracked
  /-- It is tracked, but its recorded parents do not lead to the root. -/
  | unreachable
  /-- The source does not know it any more. -/
  | dead
  /-- It is live, but not where the record has it. -/
  | moved
deriving DecidableEq

namespace Validity

/-- Whether the handle can be trusted. -/
def isValid (v : Validity) : Bool := v = valid

/-- The word for a validity. -/
def text : Validity → String
  | valid => "valid"
  | untracked => "untracked"
  | unreachable => "unreachable"
  | dead => "dead"
  | moved => "moved"

/-- Whether the live tree has the node where the record has it. -/
def inPlace (store : Store) (source : Source) (node : Handle) : Bool :=
  if store.root = some node then source.root = some node
  else source.parent node = store.parent node

/-- The validity of a handle. The source is asked only if `checkLive` says
    so. -/
def ofHandle (checkLive : Bool) (store : Store) (source : Source) (node : Handle) : Validity :=
  if !store.contains node then untracked
  else if !store.isReachable node then unreachable
  else if !checkLive then valid
  else if !source.isLive node then dead
  else if inPlace store source node then valid
  else moved

end Validity

end TreeWatch
