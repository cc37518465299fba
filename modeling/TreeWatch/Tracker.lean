import TreeWatch.Coalescer
import TreeWatch.Journal
import TreeWatch.Model
import TreeWatch.Pass
import TreeWatch.PointEdit
import TreeWatch.Settings
import TreeWatch.Task
import TreeWatch.Validity

/-!
# Trackers

A tracker keeps the record of one observed tree up to date and is what a
consumer talks to. It makes full passes and point edits, gathers attribute
changes, checks handles that consumers held, and writes the journal.

The observed tree may be another one at each call, so every operation is given
the source as it is at that moment. What an operation announces is part of its
outcome, in order and each with the record of its moment.

## Main definitions

* `Tracker`: The state of a tracker.
* `Outcome`: The result of an operation that may announce something.
* `Tracker.reconcile`: A full pass.
* `Tracker.handle`, `Tracker.drain`: One task, and all that is queued.
* `Tracker.tick`: What is due at an instant.
* `Tracker.validate`, `Tracker.resolve`: Handles held by consumers.
-/

namespace TreeWatch

/-- The state of a tracker. Without a journal nothing is written down. -/
structure Tracker where
  settings : Settings
  kinds : KindTable
  store : Store := Store.empty
  observers : Nat := 0
  emitted : Nat := 0
  tally : Tally := {}
  coalescer : Coalescer
  resyncPending : Bool := false
  passes : Nat := 0
  journal : Option Journal := none

/-- The result of an operation, the tracker after it, and what was announced. -/
structure Outcome (α : Type) where
  value : α
  tracker : Tracker
  trace : List Notice

/-- What a tick did: the pass that was asked for, and how many nodes were
    reported as changed. -/
structure Tick where
  pass : Option Report
  flushed : Nat
deriving DecidableEq

namespace Tracker

/-- A tracker that tracks nothing yet. -/
def ofSettings (settings : Settings) (kinds : KindTable) : Tracker where
  settings := settings
  kinds := kinds
  coalescer := Coalescer.ofDelay settings.coalesceDelay
  journal := if settings.diagnostics then some { maxEntries := settings.maxDiagnostics } else none

/-- Another observer listens. -/
def observe (t : Tracker) : Tracker := { t with observers := t.observers + 1 }

/-- The grid as consumers see it, described through a source. -/
def model (t : Tracker) (source : Source) : Model := ⟨t.store, source, t.kinds⟩

/-- Write an entry into the journal, if there is one. -/
def write (t : Tracker) (e : Entry) : Tracker :=
  { t with journal := t.journal.map (·.record e) }

/-- Ask for a full pass with the next tick. -/
def requestResync (t : Tracker) : Tracker :=
  if t.resyncPending then t
  else { t with resyncPending := true }.write { kind := .resyncRequested }

/-- Drop the gathered changes of nodes that are not tracked. -/
def forgetUntracked (t : Tracker) : Tracker :=
  { t with coalescer := t.coalescer.retain t.store.contains }

/-- Take over the record of a finished step. -/
def afterStep (t : Tracker) (s : Step) : Tracker :=
  { t with store := s.store, emitted := t.emitted + s.trace.length }

/-- Write down what a step did: its counts, a replacement of the model, and
    each subtree that had to be derived again. -/
def writeReport (t : Tracker) (kind : Occurrence) (node : Option Handle) (r : Report)
    (durationUs : Option Nat) : Tracker :=
  let tracked := t.store.size
  let t := t.write {
    kind := kind
    node := node
    removed := some r.removed
    inserted := some r.inserted
    relocated := some r.relocated
    deleted := some r.deleted
    tracked := some tracked
    durationUs := durationUs }
  let t := if r.reset then t.write { kind := .modelReset, tracked := some tracked } else t
  r.recovered.foldl
    (fun t c =>
      match c with
      | .inconsistentSnapshot node _ _ =>
        t.write { kind := .inconsistencyRecovered, node := some node, context := some c.message }
      | _ => t)
    t

/-- Make a full pass against a fresh capture. Passes are not timed, and their
    entries say so with a duration of zero. -/
def reconcile (t : Tracker) (source : Source) : Except Fault (Outcome Report) := do
  let s ← Pass.run t.settings.isStrict source.snapshot { store := t.store }
  let t := { t.afterStep s with passes := t.passes + 1, resyncPending := false }
  let t := t.forgetUntracked.writeReport .passCompleted none s.report (some 0)
  return ⟨s.report, t, s.trace⟩

/-- Apply one notification about `node`. -/
def notify (t : Tracker) (node : Handle) (edit : Tally → Step → Except Fault (Tally × Step)) :
    Except Fault (Outcome Report) := do
  let (tally, s) ← edit t.tally { store := t.store }
  let t := { t.afterStep s with tally := tally }.forgetUntracked
  let t := if s.report.resyncRequested then t.requestResync else t
  let t := if s.report.isNoop then t
    else t.writeReport .notificationApplied (some node) s.report none
  return ⟨s.report, t, s.trace⟩

/-- Gather an attribute change of a tracked node. -/
def attributesChanged (t : Tracker) (node : Handle) (kinds : Attributes) (now : Nat) : Tracker :=
  if t.store.contains node then { t with coalescer := t.coalescer.record node kinds now } else t

/-- Do one task at the instant `now`. -/
def handle (t : Tracker) (source : Source) (task : Task) (now : Nat) :
    Except Fault (Outcome Report) :=
  match task with
  | .cycleCompleted => t.reconcile source
  | .resync => t.reconcile source
  | .entered node => t.notify node (PointEdit.entered source node)
  | .left node => t.notify node (PointEdit.left source node)
  | .reparented node => t.notify node (PointEdit.reparented source node)
  | .attributes node kinds => .ok ⟨{}, t.attributesChanged node kinds now, []⟩

/-- The outcome of one operation after another, with both reports as one. -/
def followedBy (first : Outcome Report) (next : Tracker → Except Fault (Outcome Report)) :
    Except Fault (Outcome Report) := do
  let second ← next first.tracker
  return ⟨first.value.merge second.value, second.tracker, first.trace ++ second.trace⟩

/-- Do all tasks that were queued. Point edits and attribute changes are done
    in order; the passes that were asked for become a single one after
    them. -/
def drain (t : Tracker) (source : Source) (tasks : List Task) (now : Nat) :
    Except Fault (Outcome Report) := do
  let edits := tasks.filter fun task => !task.schedulesPass
  let done ← edits.foldlM
    (fun acc task => followedBy acc fun t => t.handle source task now)
    ⟨{}, t, []⟩
  if tasks.any Task.schedulesPass then followedBy done fun t => t.reconcile source
  else return done

/-- Announce a released batch of attribute changes, one event per node that has
    a row. -/
def publish (t : Tracker) (batch : List (Handle × Attributes)) : Outcome Nat :=
  let trace := batch.filterMap fun e =>
    (t.store.indexForNode e.1).map fun i =>
      (⟨.dataChanged i (columnCount - 1) e.2, t.store⟩ : Notice)
  let flushed := trace.length
  let t := { t with emitted := t.emitted + flushed }
  let t := if flushed = 0 then t
    else t.write {
      kind := .attributesFlushed
      tracked := some t.store.size
      context := some (Nat.repr flushed ++ " nodes") }
  ⟨flushed, t, trace⟩

/-- Announce all gathered attribute changes now. -/
def flushAttributes (t : Tracker) : Outcome Nat :=
  let (batch, coalescer) := t.coalescer.flush
  { t with coalescer := coalescer }.publish batch

/-- Make the pass that was asked for, then announce the attribute changes whose
    window has passed. -/
def tick (t : Tracker) (source : Source) (now : Nat) : Except Fault (Outcome Tick) := do
  let passed : Outcome (Option Report) ←
    if t.resyncPending then do
      let done ← t.reconcile source
      pure ⟨some done.value, done.tracker, done.trace⟩
    else pure ⟨none, t, []⟩
  let t := passed.tracker
  let (batch, coalescer) := t.coalescer.flushDue now
  let flushed := { t with coalescer := coalescer }.publish batch
  return ⟨⟨passed.value, flushed.value⟩, flushed.tracker, passed.trace ++ flushed.trace⟩

/-- Check a handle that was held outside a step. A failed check asks for a full
    pass, unless the handle is unknown to the record and to the source alike,
    when nothing is out of step. -/
def validate (t : Tracker) (source : Source) (node : Handle) : Bool × Tracker :=
  let validity := Validity.ofHandle t.settings.validateLive t.store source node
  if validity.isValid then (true, t)
  else
    let t := t.write { kind := .staleHandle, node := some node, context := some validity.text }
    (false,
      if validity ≠ .untracked || source.isLive node then t.requestResync else t)

/-- The cell of a handle that was held outside a step, once it is checked. -/
def resolve (t : Tracker) (source : Source) (node : Handle) : Except Condition Index × Tracker :=
  let (isValid, t) := t.validate source node
  match isValid, t.store.indexForNode node with
  | true, some i => (.ok i, t)
  | _, _ => (.error (.staleHandle node), t)

/-- A tracker as it is shown inside diagnostic texts. -/
def debugText (t : Tracker) : String :=
  "Mirror \x7b root: " ++ Handle.debugOption t.store.root ++ ", tracked: " ++
    Nat.repr t.store.size ++ ", passes: " ++ Nat.repr t.passes ++ ", resync_requested: " ++
    (if t.resyncPending then "true" else "false") ++ ", emitter: Emitter \x7b observers: " ++
    Nat.repr t.observers ++ ", emitted: " ++ Nat.repr t.emitted ++ " \x7d \x7d"

end Tracker

end TreeWatch
