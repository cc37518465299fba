import TreeWatch.Source
import TreeWatch.Step

/-!
# Point edits

A source that says when a node entered the tree, left it or moved needs no full
walk: each notification becomes one removal or insertion. Notifications may be
late or out of order, so each of them looks at the source as it is now and is
ignored when it no longer applies.

An entering node whose parent is not tracked enters with its topmost untracked
ancestor. The climb to that ancestor is bounded; when it does not end, or when
making room takes away the place where the node belongs, a full pass is asked
for instead.

## Main definitions

* `Tally`: How many notifications were applied and how many ignored.
* `Climb`: Where the climb from an entering node ends.
* `PointEdit.entered`, `PointEdit.left`, `PointEdit.reparented`: The three
  notifications.
-/

namespace TreeWatch

/-- How many notifications changed the record, and how many were ignored. -/
structure Tally where
  applied : Nat := 0
  ignored : Nat := 0
deriving DecidableEq

namespace Tally

/-- One more applied. -/
def apply (t : Tally) : Tally := { t with applied := t.applied + 1 }

/-- One more ignored. -/
def ignore (t : Tally) : Tally := { t with ignored := t.ignored + 1 }

end Tally

/-- Where the climb from an entering node ends. -/
inductive Climb where
  /-- At `top`, whose parent is tracked. -/
  | under (parent top : Handle)
  /-- At `top`, which has no parent. -/
  | rootless (top : Handle)
  /-- Nowhere within the bound. -/
  | endless
deriving DecidableEq

namespace PointEdit

/-- The longest chain of ancestors that is followed, the node included. -/
def maxChain : Nat := 4096

/-- Follow the live parents from `top` up to a tracked one, over at most
    `bound` untracked ones. Coming back to the entering node ends the climb as
    well. -/
def climb (store : Store) (source : Source) (node : Handle) : Nat → Handle → Climb
  | bound, top =>
    match source.parent top with
    | none => .rootless top
    | some p =>
      if store.contains p then .under p top
      else if p = node then .endless
      else match bound with
        | 0 => .endless
        | bound + 1 => climb store source node bound p

/-- A node without a parent becomes the root if nothing is tracked and the
    source agrees. -/
def adoptRoot (source : Source) (top : Handle) (t : Tally) (s : Step) : Tally × Step :=
  if s.store.isEmpty && source.root = some top then
    (t.apply, s.reset source.isLive (some top) (source.subtree top))
  else (t.ignore, s)

/-- A node entered the tree. -/
def entered (source : Source) (node : Handle) (t : Tally) (s : Step) :
    Except Fault (Tally × Step) :=
  if s.store.contains node || !source.isLive node then .ok (t.ignore, s)
  else match climb s.store source node (maxChain - 1) node with
    | .endless => .ok (t, s.requestResync)
    | .rootless top => .ok (adoptRoot source top t s)
    | .under parent top =>
      let fill := source.subtree top
      if fill.isEmpty then .ok (t.ignore, s)
      else do
        let (_, s) ← s.evictTracked source.isLive [top] fill
        if s.store.contains parent then
          let s ← s.insertRows parent (s.store.insertionRow parent top) [top] fill
          return (t.apply, s)
        else return (t, s.requestResync)

/-- A node left the tree. -/
def left (source : Source) (node : Handle) (t : Tally) (s : Step) :
    Except Fault (Tally × Step) :=
  if !s.store.contains node then .ok (t.ignore, s)
  else if s.store.root = some node then
    let s := s.reset source.isLive none Snapshot.empty
    .ok (t.apply, s.recover (.rootReplaced (some node) none))
  else do
    let (_, s) ← s.removeNode source.isLive node
    return (t.apply, s)

/-- A node has a new parent. -/
def reparented (source : Source) (node : Handle) (t : Tally) (s : Step) :
    Except Fault (Tally × Step) :=
  if !s.store.contains node then entered source node t s
  else if !source.isLive node then left source node t s
  else if source.parent node = s.store.parent node then .ok (t.ignore, s)
  else if s.store.root = some node then .ok (t, s.requestResync)
  else do
    let (_, s) ← s.removeNode source.isLive node
    let (t, s) ← entered source node t s
    if s.store.contains node then
      let report := { s.report with relocated := s.report.relocated + 1 }
      return (t, { s with report := report })
    else return (t, s)

end PointEdit

end TreeWatch
