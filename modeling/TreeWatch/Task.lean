import TreeWatch.Condition
import TreeWatch.Flags

/-!
# Tasks and their queue

The tree may be changed by a producer of its own while the record is kept
elsewhere. The producer never touches the record: it posts tasks, and the
keeper of the record takes them from the queue between its own steps.

## Main definitions

* `Task`: What a producer asks for.
* `Channel`: The queue, its senders and its receiver.
* `Channel.post`, `Channel.drain`, `Channel.next`: Both ends of the queue.
-/

namespace TreeWatch

/-- What a producer asks for. -/
inductive Task where
  /-- A producer cycle is over: compare when convenient. -/
  | cycleCompleted
  /-- A node joined the tree. -/
  | entered (node : Handle)
  /-- A node left the tree. -/
  | left (node : Handle)
  /-- A node has a new parent. -/
  | reparented (node : Handle)
  /-- Attributes of a node changed. -/
  | attributes (node : Handle) (kinds : Attributes)
  /-- Make a full pass. -/
  | resync
deriving DecidableEq

namespace Task

/-- Whether the task asks for a full pass and not for a single edit. -/
def schedulesPass : Task → Bool
  | cycleCompleted => true
  | resync => true
  | _ => false

end Task

/-- A queue of tasks. A sender is named by its number and may be gone, and so
    may the receiver. -/
structure Channel where
  queue : List Task := []
  isReceiving : Bool := true
  senders : List Bool := [true]

namespace Channel

/-- Make another sender. Its number is the number of senders made before. -/
def cloneSender (c : Channel) : Nat × Channel :=
  (c.senders.length, { c with senders := c.senders ++ [true] })

/-- Let a sender go. -/
def dropSender (c : Channel) (i : Nat) : Channel := { c with senders := c.senders.set i false }

/-- Let the receiver go, and with it what is queued. -/
def dropReceiver (c : Channel) : Channel := { c with isReceiving := false, queue := [] }

/-- Queue a task, unless nobody receives. -/
def post (c : Channel) (t : Task) : Except Condition Channel :=
  if c.isReceiving then .ok { c with queue := c.queue ++ [t] } else .error .disconnected

/-- Queue tasks up to the first that is refused. -/
def postAll (c : Channel) (ts : List Task) : Channel :=
  if c.isReceiving then { c with queue := c.queue ++ ts } else c

/-- Take all that is queued, in the order it was posted. -/
def drain (c : Channel) : List Task × Channel := (c.queue, { c with queue := [] })

/-- Wait for a task until time runs out. The queue has an end once it is empty
    and every sender is gone. -/
def next (c : Channel) : Except Condition (Option Task × Channel) :=
  match c.queue with
  | t :: rest => .ok (some t, { c with queue := rest })
  | [] => if c.senders.any id then .ok (none, c) else .error .disconnected

end Channel

end TreeWatch
