import TreeWatch.Replica
import TreeWatch.Scene.Storm
import TreeWatch.Store.Check
import TreeWatch.Tracker

/-!
# Rehearsals

A rehearsal plays a storm against a tracker. A producer applies one frame after
the other to a scene and says at the end of each that its cycle is over; the
model side does what is queued and what is due. A replica follows all
announcements. At the end the queue is emptied, gathered changes are released,
and a closing pass shows whether anything was missed.

The model side moves whenever it likes between two frames, or not at all until
the end: a `Schedule` says which moves follow which frame, so a statement about
every schedule is a statement about every way two threads can take turns. How
long the model side waits for a task, which it takes from the end of the open
window, is part of the schedule and not of the session.
`Rehearsal.run` plays one of them, in which nothing waits for long.

## Main definitions

* `Rehearsal`: What is played.
* `Session`: A rehearsal in progress.
* `Session.produce`: The move of the producer.
* `Move`, `Session.perform`: The moves of the model side.
* `Schedule`, `Schedule.prompt`: Which moves follow which frame.
* `Session.settle`, `Session.close`: The end of a rehearsal.
* `Summary`: What a rehearsal showed.
* `Rehearsal.play`: A whole rehearsal under a schedule.
* `Rehearsal.run`: The rehearsal of a storm, served promptly.
-/

namespace TreeWatch

/-- How the tracker learns about changes of shape. -/
inductive SyncMode where
  /-- By a pass at the end of each cycle. -/
  | periodic
  /-- By a notification of each change, and a pass at the end of each cycle. -/
  | incremental
deriving DecidableEq

/-- What a mode hands over to the tracker of what a scene tells: changes of shape
    only if they are asked for. -/
def SyncMode.passes : SyncMode → List Task → List Task
  | incremental, tasks => tasks
  | periodic, tasks => tasks.filter fun
    | .attributes _ _ => true
    | _ => false

/-- The word for a mode. -/
def SyncMode.text : SyncMode → String
  | periodic => "periodic"
  | incremental => "incremental"

/-- What is played: the storm, the settings of the tracker, how it is told, and
    the shape of the scene at the start. -/
structure Rehearsal where
  storm : StormSettings := {}
  settings : Settings := {}
  mode : SyncMode := .periodic
  breadth : Nat := 4
  depth : Nat := 3

/-- A move of the model side. -/
inductive Move where
  /-- Do the next task, if there is one. -/
  | handle
  /-- Do all that is queued. -/
  | drain
  /-- Do what is due. -/
  | tick
deriving DecidableEq

/-- The moves of the model side after each frame, each with its instant. -/
abbrev Schedule := Nat → List (Move × Nat)

/-- After frame `i`, at the instant `i`, the model side does the task it waited
    for and all that is queued behind it, and then what is due. -/
def Schedule.prompt : Schedule := fun i => [(.handle, i), (.drain, i), (.tick, i)]

/-- A rehearsal in progress. `changes` counts the operations that changed the
    scene. -/
structure Session where
  scene : Scene
  tracker : Tracker
  replica : Replica := {}
  channel : Channel := {}
  changes : Nat := 0

/-- What a rehearsal showed. `converged` says that the closing pass found
    nothing to change. -/
structure Summary where
  mode : SyncMode := .periodic
  seed : Nat := 0
  frames : Nat := 0
  opsApplied : Nat := 0
  passes : Nat := 0
  notificationsApplied : Nat := 0
  events : Nat := 0
  tracked : Nat := 0
  live : Nat := 0
  converged : Bool := false
  replicaMatches : Bool := false
  invariantError : Option String := none
  mismatches : List String := []
  deleted : Nat := 0
  dataChanges : Nat := 0
  diagnostics : Option String := none
  scene : Json := .null

namespace Summary

/-- Whether record, model, replica and scene all agree at the end. -/
def isClean (s : Summary) : Bool :=
  s.converged && s.replicaMatches && s.invariantError.isNone && s.mismatches.isEmpty &&
    s.tracked == s.live

/-- The summary as a JSON value, without the journal and the scene. -/
def toJson (s : Summary) : Json := .object [
  ("clean", .bool s.isClean),
  ("converged", .bool s.converged),
  ("data_changes", .number s.dataChanges),
  ("deleted", .number s.deleted),
  ("events", .number s.events),
  ("frames", .number s.frames),
  ("invariant_error", Json.ofOption s.invariantError),
  ("live", .number s.live),
  ("mismatches", .array (s.mismatches.map .string)),
  ("mode", .string s.mode.text),
  ("notifications_applied", .number s.notificationsApplied),
  ("ops_applied", .number s.opsApplied),
  ("passes", .number s.passes),
  ("replica_matches", .bool s.replicaMatches),
  ("seed", .number s.seed),
  ("tracked", .number s.tracked)]

end Summary

namespace Session

/-- Take over the tracker of an outcome and let the replica follow what was
    announced. -/
def absorb {α : Type} (s : Session) (o : Outcome α) : Session :=
  { s with tracker := o.tracker, replica := s.replica.observe o.trace }

/-- Make a full pass. -/
def reconcile (s : Session) : Except Fault (Report × Session) := do
  let o ← s.tracker.reconcile s.scene.source
  return (o.value, s.absorb o)

/-- Start with a regular scene, nothing in its feed, and a first pass. -/
def start (r : Rehearsal) : Except Fault Session := do
  let (_, scene) := (Scene.populate {} r.breadth r.depth).takeFeed
  let tracker := (Tracker.ofSettings r.settings KindTable.standard).observe
  let (_, s) ← reconcile { scene := scene, tracker := tracker }
  return s

/-- The producer applies a frame, hands over what the mode lets through of the
    feed, and says that its cycle is over. -/
def produce (s : Session) (r : Rehearsal) (frame : List SceneOp) : Session :=
  let (changed, scene) := Storm.applyFrame r.storm.maxNodes frame s.scene
  let (tasks, scene) := scene.takeFeed
  { s with
    scene := scene
    channel := s.channel.postAll (r.mode.passes tasks ++ [.cycleCompleted])
    changes := s.changes + changed }

/-- The model side does the next task, if there is one. -/
def handleNext (s : Session) (now : Nat) : Except Fault Session := do
  match s.channel.next with
  | .ok (some task, channel) =>
    let o ← s.tracker.handle s.scene.source task now
    return { s with channel := channel }.absorb o
  | _ => return s

/-- The model side does all that is queued. -/
def drain (s : Session) (now : Nat) : Except Fault Session := do
  let (tasks, channel) := s.channel.drain
  let o ← s.tracker.drain s.scene.source tasks now
  return { s with channel := channel }.absorb o

/-- The model side does what is due. -/
def tick (s : Session) (now : Nat) : Except Fault Session := do
  return s.absorb (← s.tracker.tick s.scene.source now)

/-- Make a move at the instant `now`. -/
def perform (s : Session) (move : Move) (now : Nat) : Except Fault Session :=
  match move with
  | .handle => s.handleNext now
  | .drain => s.drain now
  | .tick => s.tick now

/-- Make moves one after the other. -/
def performAll (s : Session) (moves : List (Move × Nat)) : Except Fault Session :=
  moves.foldlM (fun s m => s.perform m.1 m.2) s

/-- Empty the queue and release what is gathered. -/
def settle (s : Session) (now : Nat) : Except Fault Session := do
  let s ← s.drain now
  return s.absorb s.tracker.flushAttributes

/-- What a session shows after a closing pass with this report. -/
def summary (s : Session) (r : Rehearsal) (closing : Report) : Summary where
  mode := r.mode
  seed := r.storm.seed.toNat
  frames := r.storm.frames
  opsApplied := s.changes
  passes := s.tracker.passes
  notificationsApplied := s.tracker.tally.applied
  events := s.tracker.emitted
  tracked := s.tracker.store.size
  live := s.scene.live
  converged := closing.isNoop
  replicaMatches := s.replica.matchesGrid s.tracker.store
  invariantError := s.tracker.store.check.map Violation.message
  mismatches := s.replica.mismatches.map Mismatch.message
  deleted := s.replica.deleted.size
  dataChanges := s.replica.dataChanges
  diagnostics := s.tracker.journal.map Journal.lines
  scene := s.scene.dump

/-- Leave nothing undone, make the closing pass, and look at the result. -/
def close (s : Session) (r : Rehearsal) (now : Nat) : Except Fault Summary := do
  let s ← s.settle now
  let (closing, s) ← s.reconcile
  return s.summary r closing

end Session

namespace Rehearsal

/-- Play frames from the one with number `i` on, each followed by the moves of
    the schedule. -/
def playFrom (r : Rehearsal) (schedule : Schedule) (i : Nat) :
    List (List SceneOp) → Session → Except Fault Session
  | [], s => .ok s
  | frame :: rest, s => do
    let s ← (s.produce r frame).performAll (schedule i)
    playFrom r schedule (i + 1) rest s

/-- Play a whole rehearsal with these frames under a schedule, and close it at
    the instant `now`. -/
def play (r : Rehearsal) (frames : List (List SceneOp)) (schedule : Schedule) (now : Nat) :
    Except Fault Summary := do
  let s ← Session.start r
  let s ← r.playFrom schedule 0 frames s
  s.close r now

/-- Play the storm of a rehearsal, with a model side that never waits for
    long. -/
def run (r : Rehearsal) : Except Fault Summary :=
  let frames := Storm.frames r.storm
  r.play frames .prompt frames.length

end Rehearsal

end TreeWatch
