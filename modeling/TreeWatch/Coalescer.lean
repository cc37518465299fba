import TreeWatch.Fault
import TreeWatch.Flags

/-!
# Coalesced attribute changes

Attribute changes may come with every frame. They are gathered per node and
released together when a window of fixed length has passed. The window opens
with the first change after an idle time and is not moved by later ones, so a
steady stream is still released once per window.

Instants and delays are counted in one unit of time, and it does not matter
which. A sum of an instant and a delay has no bound here. The clock of a machine
has a last instant, and only the question when the window closes forms such a
sum; `deadlineUntil` asks it on a clock that ends.

## Main definitions

* `Coalescer`: The gathered changes and the open window.
* `Coalescer.record`: Gather a change.
* `Coalescer.forget`, `Coalescer.retain`: Drop changes of nodes that are gone.
* `Coalescer.deadline`, `Coalescer.deadlineUntil`: When the window closes.
* `Coalescer.flush`, `Coalescer.flushDue`: Release the changes.
-/

namespace TreeWatch

/-- The gathered attribute changes. `windowStart` is the instant at which the
    open window began, none while nothing is gathered. -/
structure Coalescer where
  delay : Nat
  pending : HandleMap Attributes := ∅
  windowStart : Option Nat := none
  recorded : Nat := 0
  flushes : Nat := 0

namespace Coalescer

/-- An idle coalescer with windows of length `delay`. -/
def ofDelay (delay : Nat) : Coalescer := { delay := delay }

/-- Gather a change of `kinds` on `node` at the instant `now`. A change of
    nothing is no change. -/
def record (c : Coalescer) (node : Handle) (kinds : Attributes) (now : Nat) : Coalescer :=
  if kinds.isEmpty then c
  else
    { c with
      pending := c.pending.insert node ((c.pending.getD node Attributes.none).union kinds)
      recorded := c.recorded + 1
      windowStart := c.windowStart.or (some now) }

/-- Close the window if nothing is gathered any more. -/
def closeIfIdle (c : Coalescer) : Coalescer :=
  if c.pending.isEmpty then { c with windowStart := none } else c

/-- Drop what is gathered for one node. -/
def forget (c : Coalescer) (node : Handle) : Coalescer :=
  { c with pending := c.pending.erase node }.closeIfIdle

/-- Keep only the nodes that pass a test. -/
def retain (c : Coalescer) (keep : Handle → Bool) : Coalescer :=
  { c with pending := c.pending.filter fun h _ => keep h }.closeIfIdle

/-- Whether anything is gathered. -/
def hasPending (c : Coalescer) : Bool := !c.pending.isEmpty

/-- The number of nodes with gathered changes. -/
def pendingCount (c : Coalescer) : Nat := c.pending.size

/-- The kinds gathered for a node. -/
def pendingFor (c : Coalescer) (node : Handle) : Option Attributes := c.pending[node]?

/-- The instant at which the open window closes. -/
def deadline (c : Coalescer) : Option Nat := c.windowStart.map (· + c.delay)

/-- The same on a clock with the last instant `last`. A window that stays open
    beyond it has no end there. -/
def deadlineUntil (c : Coalescer) (last : Nat) : Except Fault (Option Nat) :=
  match c.windowStart with
  | none => .ok none
  | some start =>
    if start + c.delay ≤ last then .ok (some (start + c.delay)) else .error .instantTooLate

/-- The time that is left of the open window. A clock that stepped back counts
    as no time passed. -/
def timeLeft (c : Coalescer) (now : Nat) : Option Nat :=
  c.windowStart.map fun start => c.delay - (now - start)

/-- Release everything, in handle order. -/
def flush (c : Coalescer) : List (Handle × Attributes) × Coalescer :=
  if c.pending.isEmpty then ([], { c with windowStart := none })
  else
    (c.pending.toList, { c with windowStart := none, pending := ∅, flushes := c.flushes + 1 })

/-- Release everything if the window has passed. -/
def flushDue (c : Coalescer) (now : Nat) : List (Handle × Attributes) × Coalescer :=
  match c.windowStart with
  | none => ([], c)
  | some start => if c.delay ≤ now - start then c.flush else ([], c)

end Coalescer

end TreeWatch
