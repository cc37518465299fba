import TreeWatch.Proofs.Handling
import TreeWatch.Proofs.Lasting
import TreeWatch.Proofs.Mourning
import TreeWatch.Proofs.Windows

/-!
# Announced Attribute Changes

The record and the gathered changes are separate states that different
operations change. What keeps them together is that every pass and every
notification ends by dropping the changes of nodes that are not tracked any
more, and that a change is gathered only for a tracked node.

The operations of a tracker are read here as calls of its coalescer
(`Tracker.Op.calls`), so what waits is known by the reference of the
coalescer. Between two operations all of it belongs to tracked nodes, and a
tracked node is shown in its row, so a release is announced completely. Nothing
else announces attribute changes: that is a law of steps. That the record stays
sound is a law as well, at least of notifications, whatever the source says.

## Main definitions

* `reports`: The attribute changes that a trace announces.
* `Notice.IsAccurate`: A change is announced for the row of a tracked node.
* `Coalescer.batches`: What calls of a coalescer release.
* `Tracker.Op`: What can be asked of a tracker.
* `Tracker.Op.calls`: The calls of the coalescer that an operation makes.
* `Tracker.Run`: The trackers that come about, with the calls made so far.
* `Tracker.Attends`: What waits belongs to tracked nodes.
* `Tracker.Turn`: What an operation does to what waits.

## Theorems

* `Step.law_silent`: Changes of a record announce no attribute changes.
* `Step.law_sober`: They keep a record sound.
* `Tracker.turn_run`: What each operation does.
* `Tracker.Run.announces`: What is announced is what waits.
-/

namespace TreeWatch

/-- The attribute change that is announced, if it is one. -/
def Notice.report? (n : Notice) : Option (Handle × Attributes) :=
  match n.event with
  | .dataChanged i _ kinds => some (i.node, kinds)
  | _ => none

/-- The attribute changes that a trace announces. -/
def reports (trace : List Notice) : List (Handle × Attributes) := trace.filterMap Notice.report?

theorem reports_append (before after : List Notice) :
    reports (before ++ after) = reports before ++ reports after :=
  List.filterMap_append

/-- An announced attribute change is one of something, and it covers all columns
    of the row in which a tracked node is shown at that moment. -/
def Notice.IsAccurate (n : Notice) : Prop :=
  ∀ i last kinds, n.event = .dataChanged i last kinds →
    kinds.isEmpty = false ∧ i.column = 0 ∧ last + 1 = columnCount ∧
      n.store.contains i.node = true ∧ n.store.indexForNode i.node = some i

-- A trace without reports.
theorem isAccurate_of_silent (trace : List Notice) (h : reports trace = []) :
    ∀ n ∈ trace, n.IsAccurate := by
  intro n hn i last kinds he
  have hnone := List.filterMap_eq_nil_iff.mp h n hn
  rw [Notice.report?, he] at hnone
  exact absurd hnone (by simp only [reduceCtorEq, not_false_eq_true])

namespace Step

/-- No attribute change is announced between two moments of a step. -/
def Silent (s s' : Step) : Prop := reports s'.trace = reports s.trace

/-- The record stays sound between two moments of a step. -/
def Sober (s s' : Step) : Prop := s.store.Sound → s'.store.Sound

section Changes

variable (isAlive : Handle → Bool) (s : Step)

-- An announced change, and the deletions that follow.
theorem Silent.pair (m s' : Step) (h : s.Silent m) (n n' : Notice) (hn : n.report? = none)
    (hn' : n'.report? = none) (htrace : s'.trace = m.trace ++ [n] ++ [n']) : s.Silent s' := by
  rw [Silent, htrace, reports_append, reports_append]
  simp only [reports, List.filterMap_cons, hn, hn', List.filterMap_nil, List.append_nil]
  exact h

theorem Silent.announceDeleted (m : Step) (h : s.Silent m) (pruned : List Handle) :
    s.Silent (m.announceDeleted isAlive pruned) := by
  have hnone : reports (((pruned.filter fun x => !m.store.contains x && !isAlive x)).map
      fun x => (⟨.nodeDeleted x, m.store⟩ : Notice)) = [] := by
    rw [reports, List.filterMap_eq_nil_iff]
    intro n hn
    rcases List.mem_map.mp hn with ⟨x, _, rfl⟩
    rfl
  rw [Silent, Step.announceDeleted, reports_append, hnone, List.append_nil]
  exact h

theorem silent_removeRows (parent : Handle) (first last : Nat) (s' : Step)
    (hok : s.removeRows isAlive parent first last = .ok s') : s.Silent s' := by
  rcases s.removeRows_cases isAlive parent first last s' hok with
    rfl | ⟨under, m, out, rfl, _, htrace, rfl, _⟩
  · exact rfl
  · exact Silent.announceDeleted isAlive s m (Silent.pair s s m rfl _ _ rfl rfl htrace) _

theorem silent_insertRows (parent : Handle) (first : Nat) (handles : List Handle)
    (fill : Snapshot) (s' : Step) (hok : s.insertRows parent first handles fill = .ok s') :
    s.Silent s' := by
  rcases s.insertRows_cases parent first handles fill s' hok with
    rfl | ⟨under, last, _, htrace, _⟩
  · exact rfl
  · exact Silent.pair s s s' rfl _ _ rfl rfl htrace

theorem silent_relocate (h parent : Handle) :
    Abides Silent s Prod.snd (s.relocate h parent) := by
  intro done hok
  rcases s.relocate_cases h parent done hok with
    hsame | ⟨source, oldRow, row, under, under', _, _, _, htrace, _⟩
  · rw [Silent, hsame]
  · have hout : s.Silent { s with trace := _ } := Silent.pair s s _ rfl
      ⟨.rowsAboutToBeRemoved under oldRow oldRow, s.store⟩
      ⟨.rowsRemoved under oldRow oldRow, (s.store.detach h).2⟩ rfl rfl rfl
    exact Silent.pair s _ done.2 hout _ _ rfl rfl htrace

theorem silent_reset (root : Option Handle) (fill : Snapshot) :
    s.Silent (s.reset isAlive root fill) := by
  unfold reset
  refine Silent.announceDeleted isAlive s _ ?_ _
  exact Silent.pair s s _ rfl ⟨.modelAboutToBeReset, _⟩ ⟨.modelReset, _⟩ rfl rfl rfl

variable (mayEnter : Handle → Prop)

omit s

/-- The changes of a record announce no attribute changes. -/
theorem law_silent : Law isAlive mayEnter Silent where
  keeps _ _ _ htrace := congrArg reports htrace
  trans _ _ _ h h' := h'.trans h
  removeRows s := s.silent_removeRows isAlive
  insertRows s parent first handles fill _ := s.silent_insertRows parent first handles fill
  reset s root fill _ _ := s.silent_reset isAlive root fill

/-- The changes of a record keep it sound, even if a source contradicts
    itself. -/
theorem law_sober : Law isAlive mayEnter Sober := Store.lasting_sound.law isAlive mayEnter

end Changes

end Step

namespace Attributes

theorem isEmpty_union (a b : Attributes) : (a.union b).isEmpty = (a.isEmpty && b.isEmpty) := by
  rw [Bool.eq_iff_iff, Bool.and_eq_true]
  simp only [isEmpty, union, beq_iff_eq, BitVec.ofNat_eq_ofNat, BitVec.or_eq_zero_iff]

/-- A union is empty only if all sets are. -/
theorem isEmpty_unions (sets : List Attributes) : (unions sets).isEmpty = sets.all isEmpty := by
  induction sets using List.reverseRecOn with
  | nil => rfl
  | append_singleton sets a ih =>
      rw [unions_append, isEmpty_union, ih, List.all_append, List.all_cons, List.all_nil,
        Bool.and_true]

end Attributes

namespace Coalescer

/-- What several calls release, if `changes` waited before: with each call that
    releases, one batch of all that waits then. -/
def batches (c : Coalescer) (changes : List Change) : List Call → List (Handle × Attributes)
  | [] => []
  | call :: rest =>
    (if call.releases c then Change.batch changes else []) ++
      batches (call.run c).2 (changes.filter (call.spares c ·.node) ++ call.change?.toList) rest

theorem batches_append (c : Coalescer) (changes : List Change) (calls more : List Call) :
    c.batches changes (calls ++ more) = c.batches changes calls ++
      (c.after calls).batches (waiting c changes calls) more := by
  induction calls generalizing c changes with
  | nil => rfl
  | cons call rest ih =>
      rw [List.cons_append, batches, batches, ih, List.append_assoc]
      rfl

/-- The nodes of a batch changed, and what changed is not nothing. -/
theorem Change.mem_batch (changes : List Change)
    (hsolid : ∀ ch ∈ changes, ch.kinds.isEmpty = false) (e : Handle × Attributes)
    (he : e ∈ Change.batch changes) :
    (∃ ch ∈ changes, ch.node = e.1) ∧ e.2.isEmpty = false := by
  rcases List.mem_map.mp he with ⟨h, hh, rfl⟩
  rcases List.mem_map.mp (((Handle.ascending_spec _).2 h).mp hh) with ⟨ch, hch, hnode⟩
  refine ⟨⟨ch, hch, hnode⟩, ?_⟩
  rw [Attributes.isEmpty_unions, List.all_eq_false]
  refine ⟨ch.kinds, List.mem_map_of_mem (List.mem_filter.mpr ⟨hch, ?_⟩), ?_⟩
  · exact decide_eq_true hnode
  · rw [hsolid ch hch]
    exact Bool.false_ne_true

end Coalescer

namespace Tracker

open Coalescer (Call Change waiting)

/-- What can be asked of a tracker. -/
inductive Op where
  | handle (task : Task) (now : Nat)
  | drain (tasks : List Task) (now : Nat)
  | tick (now : Nat)
  | reconcile
  | attributesChanged (node : Handle) (kinds : Attributes) (now : Nat)
  | flushAttributes
  | validate (node : Handle)

section Calls

variable (source : Source)

/-- The call with which a pass or a notification ends. -/
def pruning {α : Type} : Except Fault (Outcome α) → List Call
  | .ok o => [.retain o.tracker.store.contains]
  | .error _ => []

/-- The call that reports an attribute change, if the node is tracked. -/
def recording (t : Tracker) (node : Handle) (kinds : Attributes) (now : Nat) : List Call :=
  if t.store.contains node then [.record node kinds now] else []

/-- The calls that come with one task. -/
def taskCalls (t : Tracker) (task : Task) (now : Nat) : List Call :=
  match task with
  | .attributes node kinds => t.recording node kinds now
  | _ => pruning (t.handle source task now)

/-- The calls that come with tasks that are done one after the other. -/
def taskListCalls (t : Tracker) (now : Nat) : List Task → List Call
  | [] => []
  | task :: rest => t.taskCalls source task now ++
    match t.handle source task now with
    | .ok o => o.tracker.taskListCalls now rest
    | .error _ => []

namespace Op

/-- Do what is asked for. The value is the number of reports that is returned,
    where one is. -/
def run (t : Tracker) : Op → Except Fault (Outcome (Option Nat))
  | handle task now => (t.handle source task now).map fun o => ⟨none, o.tracker, o.trace⟩
  | drain tasks now => (t.drain source tasks now).map fun o => ⟨none, o.tracker, o.trace⟩
  | tick now => (t.tick source now).map fun o => ⟨some o.value.flushed, o.tracker, o.trace⟩
  | reconcile => (t.reconcile source).map fun o => ⟨none, o.tracker, o.trace⟩
  | attributesChanged node kinds now => .ok ⟨none, t.attributesChanged node kinds now, []⟩
  | flushAttributes => .ok ⟨some t.flushAttributes.value, t.flushAttributes.tracker,
    t.flushAttributes.trace⟩
  | validate node => .ok ⟨none, (t.validate source node).2, []⟩

/-- The calls of the coalescer that come with an operation. -/
def calls (t : Tracker) : Op → List Call
  | handle task now => t.taskCalls source task now
  | drain tasks now => t.taskListCalls source now (tasks.filter fun task => !task.schedulesPass) ++
    if tasks.any Task.schedulesPass then pruning (t.drain source tasks now) else []
  | tick now => (if t.resyncPending then pruning (t.reconcile source) else []) ++ [.flushDue now]
  | reconcile => pruning (t.reconcile source)
  | attributesChanged node kinds now => t.recording node kinds now
  | flushAttributes => [.flush]
  | validate _ => []

end Op

end Calls

/-- The trackers that come about from `start`, each with the calls of its
    coalescer so far. The source may be another one each time. -/
inductive Run (start : Tracker) : List Call → Tracker → Prop where
  | start : Run start [] start
  | acted (calls : List Call) (t : Tracker) (source : Source) (op : Op)
    (o : Outcome (Option Nat)) (h : Run start calls t) (ho : op.run source t = .ok o) :
    Run start (calls ++ op.calls source t) o.tracker

/-- The record is sound, and the changes that wait are gathered. They are
    changes of something, and of tracked nodes. -/
structure Attends (t : Tracker) (changes : List Change) : Prop where
  record : t.store.Sound
  gathers : t.coalescer.Gathers changes
  tracked : ∀ ch ∈ changes, t.store.contains ch.node = true
  solid : ∀ ch ∈ changes, ch.kinds.isEmpty = false

/-- An operation that leads from the tracker `t` to `u` makes `calls` of the
    coalescer, and announces exactly what they release. -/
structure Turn (t : Tracker) (changes : List Change) (calls : List Call) (u : Tracker)
    (trace : List Notice) : Prop where
  coalescer : u.coalescer = t.coalescer.after calls
  attends : u.Attends (waiting t.coalescer changes calls)
  accurate : ∀ n ∈ trace, n.IsAccurate
  reports_eq : reports trace = t.coalescer.batches changes calls

namespace Turn

variable (t u : Tracker) (changes : List Change) (calls : List Call) (trace : List Notice)

-- Nothing is done.
theorem refl (h : t.Attends changes) : Turn t changes [] t [] :=
  ⟨rfl, h, fun _ hn => absurd hn List.not_mem_nil, rfl⟩

/-- One operation after another. -/
theorem trans (more : List Call) (v : Tracker) (trace' : List Notice)
    (h : Turn t changes calls u trace)
    (h' : Turn u (waiting t.coalescer changes calls) more v trace') :
    Turn t changes (calls ++ more) v (trace ++ trace') := by
  refine ⟨?_, ?_, fun n hn => ?_, ?_⟩
  · rw [h'.coalescer, h.coalescer, Coalescer.after_append]
  · rw [Coalescer.waiting_append, ← h.coalescer]
    exact h'.attends
  · exact (List.mem_append.mp hn).elim (h.accurate n) (h'.accurate n)
  · rw [reports_append, h.reports_eq, h'.reports_eq, Coalescer.batches_append, h.coalescer]

variable (ht : t.Attends changes)

include ht

/-- What waits after some calls is gathered, and it is not nothing. It remains to
    be shown that it is tracked. -/
theorem of_tracked (hrecord : u.store.Sound) (hcoalescer : u.coalescer = t.coalescer.after calls)
    (htracked : ∀ ch ∈ waiting t.coalescer changes calls, u.store.contains ch.node = true)
    (haccurate : ∀ n ∈ trace, n.IsAccurate)
    (hreports : reports trace = t.coalescer.batches changes calls) :
    Turn t changes calls u trace := by
  refine ⟨hcoalescer, ⟨hrecord, ?_, htracked, fun ch hch => ?_⟩, haccurate, hreports⟩
  · rw [hcoalescer]
    exact Coalescer.Gathers.after calls _ _ ht.gathers
  · rcases Coalescer.mem_waiting _ _ calls ch hch with hch | ⟨call, _, hcall⟩
    · exact ht.solid ch hch
    · exact (Coalescer.change?_spec call ch hcall).2

/-- The changes of nodes that are not tracked any more are dropped. -/
theorem of_pruned (hrecord : u.store.Sound)
    (hcoalescer : u.coalescer = t.coalescer.retain u.store.contains)
    (hsilent : reports trace = []) :
    Turn t changes [.retain u.store.contains] u trace := by
  refine of_tracked t u changes _ trace ht hrecord hcoalescer (fun ch hch => ?_)
    (isAccurate_of_silent trace hsilent) hsilent
  simp only [waiting, Call.spares, Call.change?, Option.toList_none, List.append_nil,
    List.mem_filter] at hch
  exact hch.2

end Turn

/-- Every node of a batch is announced if all of them are tracked, because then
    they are shown. -/
theorem publish_complete (t : Tracker) (ht : t.store.Sound) (batch : List (Handle × Attributes))
    (hbatch : ∀ e ∈ batch, t.store.contains e.1 = true ∧ e.2.isEmpty = false) :
    (t.publish batch).tracker.coalescer = t.coalescer ∧
      (∀ n ∈ (t.publish batch).trace, n.IsAccurate) ∧
      reports (t.publish batch).trace = batch ∧
      (t.publish batch).value = (reports (t.publish batch).trace).length := by
  have hnotice : ∀ n ∈ (t.publish batch).trace, ∃ e ∈ batch, ∃ i,
      t.store.indexForNode e.1 = some i ∧ n = ⟨.dataChanged i (columnCount - 1) e.2, t.store⟩ := by
    intro n hn
    rcases List.mem_filterMap.mp hn with ⟨e, he, hn⟩
    rcases Option.map_eq_some_iff.mp hn with ⟨i, hi, rfl⟩
    exact ⟨e, he, i, hi, rfl⟩
  refine ⟨?_, fun n hn i last kinds hevent => ?_, ?_, ?_⟩
  · simp only [publish]
    split <;> rfl
  · rcases hnotice n hn with ⟨e, he, i', hi, rfl⟩
    rw [Event.dataChanged.injEq] at hevent
    rcases hevent with ⟨rfl, rfl, rfl⟩
    rcases ht.indexForNode_spec t.store e.1 i' hi with ⟨hnode, hcolumn⟩
    exact ⟨(hbatch e he).2, hcolumn, rfl, hnode ▸ (hbatch e he).1, hnode ▸ hi⟩
  · rw [reports, publish, List.filterMap_filterMap]
    refine (List.filterMap_congr fun e he => ?_).trans (List.filterMap_some (l := batch))
    have hsome := ht.indexForNode_isSome t.store e.1
    rw [(hbatch e he).1] at hsome
    rcases Option.isSome_iff_exists.mp hsome with ⟨i, hi⟩
    have hnode := (ht.indexForNode_spec t.store e.1 i hi).1
    rw [hi, Option.map_some, Option.bind_some]
    exact congrArg (fun h => some (h, e.2)) hnode
  · refine (List.filterMap_length_eq_length.mpr fun n hn => ?_).symm
    rcases hnotice n hn with ⟨e, _, i, _, rfl⟩
    rfl

-- An operation ended with some other value if it ended with a value made of it.
theorem exists_of_map {α : Type} (r : Except Fault (Outcome α))
    (f : Outcome α → Outcome (Option Nat)) (o : Outcome (Option Nat)) (h : r.map f = .ok o) :
    ∃ done, r = .ok done ∧ f done = o := by
  cases r with
  | error e => exact absurd h (by simp only [Except.map, reduceCtorEq, not_false_eq_true])
  | ok done =>
      simp only [Except.map, Except.ok.injEq] at h
      exact ⟨done, rfl, h⟩

section Operations

variable (t : Tracker) (changes : List Change) (ht : t.Attends changes) (source : Source)

include ht

/-- What a call releases is announced completely, if it does not record
    anything. -/
theorem turn_publish (call : Call) (hcall : call.change? = none) (u : Tracker)
    (hu : u = { t with coalescer := (call.run t.coalescer).2 }) :
    Turn t changes [call] (u.publish (call.run t.coalescer).1).tracker
        (u.publish (call.run t.coalescer).1).trace ∧
      (u.publish (call.run t.coalescer).1).value =
        (reports (u.publish (call.run t.coalescer).1).trace).length := by
  have hstore : u.store = t.store := by rw [hu]
  have hreleased := ht.gathers.released_eq _ _ call
  have hbatch : ∀ e ∈ (call.run t.coalescer).1,
      u.store.contains e.1 = true ∧ e.2.isEmpty = false := by
    intro e he
    rw [hreleased] at he
    by_cases hcalled : call.releases t.coalescer = true
    · rw [if_pos hcalled] at he
      rcases Coalescer.Change.mem_batch changes ht.solid e he with ⟨⟨ch, hch, hnode⟩, hsolid⟩
      rw [hstore]
      exact ⟨hnode ▸ ht.tracked ch hch, hsolid⟩
    · rw [if_neg hcalled] at he
      exact absurd he List.not_mem_nil
  rcases u.publish_complete (hstore ▸ ht.record) _ hbatch with
    ⟨hcoalescer, haccurate, hreports, hvalue⟩
  have hkept := (u.publish_spec (call.run t.coalescer).1).1.trans hstore
  refine ⟨.of_tracked t _ changes [call] _ ht (hkept ▸ ht.record) ?_ (fun ch hch => ?_) haccurate
    ?_, hvalue⟩
  · rw [hcoalescer, hu]
    rfl
  · -- Without a record nothing is added to what waits.
    simp only [waiting, hcall, Option.toList_none, List.append_nil, List.mem_filter] at hch
    rw [hkept]
    exact ht.tracked ch hch.1
  · rw [hreports, hreleased, Coalescer.batches, Coalescer.batches, List.append_nil]

theorem turn_reconcile (o : Outcome Report) (ho : t.reconcile source = .ok o) :
    Turn t changes (pruning (t.reconcile source)) o.tracker o.trace := by
  rcases t.reconcile_spec ht.record source with ⟨o', ho', hsound, _⟩
  rw [ho, Except.ok.injEq] at ho'
  subst ho'
  rcases t.reconcile_cases source o ho with ⟨s, j, hrun, heq⟩
  have hsilent := Pass.abides_run source.snapshot (Step.law_silent _ _) source.proper_snapshot
    Step.silent_relocate t.settings.isStrict { store := t.store } ht.record s hrun
  rw [ho, pruning]
  refine .of_pruned t o.tracker changes o.trace ht hsound ?_ ?_
  · rw [heq]
  · rw [heq]
    exact hsilent

theorem turn_notify (node : Handle) (edit : Tally → Step → Except Fault (Tally × Step))
    (hsober : Step.Abides Step.Sober { store := t.store } Prod.snd
      (edit t.tally { store := t.store }))
    (hsilent : Step.Abides Step.Silent { store := t.store } Prod.snd
      (edit t.tally { store := t.store }))
    (o : Outcome Report) (ho : t.notify node edit = .ok o) :
    Turn t changes (pruning (t.notify node edit)) o.tracker o.trace := by
  rcases t.notify_cases node edit o ho with ⟨tally, s, pending, j, hedit, heq⟩
  rw [ho, pruning]
  refine .of_pruned t o.tracker changes o.trace ht ?_ ?_ ?_
  · rw [heq]
    exact hsober _ hedit ht.record
  · rw [heq]
  · rw [heq]
    exact hsilent _ hedit

theorem turn_attributes (node : Handle) (kinds : Attributes) (now : Nat) :
    Turn t changes (t.recording node kinds now) (t.attributesChanged node kinds now) [] := by
  unfold recording attributesChanged
  by_cases hnode : t.store.contains node = true
  · rw [if_pos hnode, if_pos hnode]
    refine .of_tracked t _ changes _ [] ht ht.record rfl (fun ch hch => ?_)
      (fun n hn => absurd hn List.not_mem_nil) rfl
    rcases Coalescer.mem_waiting _ _ _ ch hch with hch | ⟨call, hcall, hch⟩
    · exact ht.tracked ch hch
    · rw [List.mem_singleton] at hcall
      subst hcall
      simp only [Call.change?] at hch
      split at hch
      · exact absurd hch (by simp only [reduceCtorEq, not_false_eq_true])
      · rw [Option.some.injEq] at hch
        exact hch ▸ hnode
  · rw [if_neg hnode, if_neg hnode]
    exact .refl t changes ht

theorem turn_handle (task : Task) (now : Nat) (o : Outcome Report)
    (ho : t.handle source task now = .ok o) :
    Turn t changes (t.taskCalls source task now) o.tracker o.trace := by
  have hshows : PointEdit.Shows source fun _ => True :=
    ⟨fun _ _ => trivial, fun _ _ => trivial, fun _ _ _ => trivial⟩
  cases task with
  | cycleCompleted => exact t.turn_reconcile changes ht source o ho
  | resync => exact t.turn_reconcile changes ht source o ho
  | entered node =>
      exact t.turn_notify changes ht node _
        (PointEdit.abides_entered source node _ (Step.law_sober _ _) _ hshows)
        (PointEdit.abides_entered source node _ (Step.law_silent _ _) _ hshows) o ho
  | left node =>
      exact t.turn_notify changes ht node _
        (PointEdit.abides_left source node _ (Step.law_sober _ fun _ => True) _ ht.record)
        (PointEdit.abides_left source node _ (Step.law_silent _ fun _ => True) _ ht.record) o ho
  | reparented node =>
      exact t.turn_notify changes ht node _
        (PointEdit.abides_reparented source node _ (Step.law_sober _ _) _ ht.record hshows)
        (PointEdit.abides_reparented source node _ (Step.law_silent _ _) _ ht.record hshows) o ho
  | attributes node kinds =>
      rw [handle, Except.ok.injEq] at ho
      rw [← ho]
      exact t.turn_attributes changes ht node kinds now

theorem turn_tick (now : Nat) (o : Outcome Tick) (ho : t.tick source now = .ok o) :
    Turn t changes ((Op.tick now).calls source t) o.tracker o.trace ∧
      o.value.flushed = (reports o.trace).length := by
  unfold tick at ho
  simp only [Op.calls]
  by_cases hpending : t.resyncPending = true
  · rw [if_pos hpending] at ho
    cases hpass : t.reconcile source with
    | error f => simp only [hpass, bind, Except.bind, reduceCtorEq] at ho
    | ok done =>
        simp only [hpass, bind, Except.bind, pure, Except.pure, Except.ok.injEq] at ho
        have hturn := t.turn_reconcile changes ht source done hpass
        rw [hpass] at hturn
        rcases done.tracker.turn_publish _ hturn.attends (.flushDue now) rfl _ rfl with
          ⟨hflush, hvalue⟩
        rw [if_pos hpending, ← ho]
        refine ⟨hturn.trans t _ changes _ _ _ _ _ hflush, ?_⟩
        -- The pass itself reports nothing.
        rw [reports_append, hturn.reports_eq]
        exact hvalue
  · rw [if_neg hpending] at ho
    simp only [bind, Except.bind, pure, Except.pure, Except.ok.injEq] at ho
    rcases t.turn_publish changes ht (.flushDue now) rfl _ rfl with ⟨hflush, hvalue⟩
    rw [if_neg hpending, ← ho]
    exact ⟨hflush, hvalue⟩

omit ht in
theorem turn_edits (now : Nat) (calls : List Call) (tasks : List Task) (first : Outcome Report)
    (hfirst : Turn t changes calls first.tracker first.trace) (o : Outcome Report)
    (ho : tasks.foldlM (fun acc task => followedBy acc fun t => t.handle source task now) first =
      .ok o) :
    Turn t changes (calls ++ first.tracker.taskListCalls source now tasks) o.tracker o.trace := by
  induction tasks generalizing first calls with
  | nil =>
      simp only [List.foldlM_nil, pure, Except.pure, Except.ok.injEq] at ho
      rw [taskListCalls, List.append_nil, ← ho]
      exact hfirst
  | cons task rest ih =>
      rw [List.foldlM_cons] at ho
      cases hdone : first.tracker.handle source task now with
      | error f => simp only [followedBy, hdone, bind, Except.bind, reduceCtorEq] at ho
      | ok second =>
          simp only [followedBy, hdone, bind, Except.bind, pure, Except.pure] at ho
          have hturn := first.tracker.turn_handle _ hfirst.attends source task now second hdone
          rw [taskListCalls, hdone, ← List.append_assoc]
          exact ih _ ⟨first.value.merge second.value, second.tracker, first.trace ++ second.trace⟩
            (hfirst.trans t _ changes _ _ _ _ _ hturn) ho

theorem turn_drain (tasks : List Task) (now : Nat) (o : Outcome Report)
    (ho : t.drain source tasks now = .ok o) :
    Turn t changes ((Op.drain tasks now).calls source t) o.tracker o.trace := by
  have hsame := ho
  unfold drain at ho
  dsimp only at ho
  cases hedits : (tasks.filter fun task => !task.schedulesPass).foldlM
      (fun acc task => followedBy acc fun t => t.handle source task now)
      (⟨{}, t, []⟩ : Outcome Report) with
  | error f => simp only [hedits, bind, Except.bind, reduceCtorEq] at ho
  | ok done =>
      have hturn := t.turn_edits changes source now [] _ _ (.refl t changes ht) done hedits
      rw [List.nil_append] at hturn
      simp only [hedits, bind, Except.bind] at ho
      simp only [Op.calls]
      by_cases hpass : tasks.any Task.schedulesPass = true
      · rw [if_pos hpass] at ho ⊢
        cases hpassed : done.tracker.reconcile source with
        | error f => simp only [followedBy, hpassed, bind, Except.bind, reduceCtorEq] at ho
        | ok second =>
            simp only [followedBy, hpassed, bind, Except.bind, pure, Except.pure,
              Except.ok.injEq] at ho
            have hlast := done.tracker.turn_reconcile _ hturn.attends source second hpassed
            rw [hsame, ← ho]
            rw [hpassed] at hlast
            exact hturn.trans t _ changes _ _ _ _ _ hlast
      · rw [if_neg hpass, List.append_nil]
        rw [if_neg hpass] at ho
        simp only [pure, Except.pure, Except.ok.injEq] at ho
        exact ho ▸ hturn

/-- Every operation announces what its calls of the coalescer release, and
    returns the number of these announcements. -/
theorem turn_run (op : Op) (o : Outcome (Option Nat)) (ho : op.run source t = .ok o) :
    Turn t changes (op.calls source t) o.tracker o.trace ∧
      ∀ n, o.value = some n → n = (reports o.trace).length := by
  have hnone : ∀ n : Nat, (none : Option Nat) = some n → n = (reports o.trace).length := by
    intro n hn
    exact absurd hn (by simp only [reduceCtorEq, not_false_eq_true])
  cases op with
  | handle task now =>
      rcases exists_of_map _ _ o ho with ⟨done, hdone, rfl⟩
      exact ⟨t.turn_handle changes ht source task now done hdone, hnone⟩
  | drain tasks now =>
      rcases exists_of_map _ _ o ho with ⟨done, hdone, rfl⟩
      exact ⟨t.turn_drain changes ht source tasks now done hdone, hnone⟩
  | tick now =>
      rcases exists_of_map _ _ o ho with ⟨done, hdone, rfl⟩
      rcases t.turn_tick changes ht source now done hdone with ⟨hturn, hvalue⟩
      refine ⟨hturn, fun n hn => ?_⟩
      rw [Option.some.injEq] at hn
      exact hn ▸ hvalue
  | reconcile =>
      rcases exists_of_map _ _ o ho with ⟨done, hdone, rfl⟩
      exact ⟨t.turn_reconcile changes ht source done hdone, hnone⟩
  | attributesChanged node kinds now =>
      rw [Op.run, Except.ok.injEq] at ho
      subst ho
      exact ⟨t.turn_attributes changes ht node kinds now, hnone⟩
  | flushAttributes =>
      rw [Op.run, Except.ok.injEq] at ho
      subst ho
      rcases t.turn_publish changes ht .flush rfl _ rfl with ⟨hturn, hvalue⟩
      refine ⟨hturn, fun n hn => ?_⟩
      rw [Option.some.injEq] at hn
      exact hn ▸ hvalue
  | validate node =>
      rw [Op.run, Except.ok.injEq] at ho
      subst ho
      refine ⟨?_, hnone⟩
      rcases t.validate_cases source node with ⟨_, hsame⟩ | ⟨_, j, hfailed⟩
      · rw [hsame]
        exact .refl t changes ht
      · rw [hfailed]
        exact ⟨rfl, ⟨ht.record, ht.gathers, ht.tracked, ht.solid⟩,
          fun n hn => absurd hn List.not_mem_nil, rfl⟩

end Operations

/-- Along a run the calls so far explain what is gathered. -/
theorem Run.attends (delay : Nat) (start t : Tracker) (calls : List Call)
    (hstart : start.store.Sound) (hidle : start.coalescer = Coalescer.ofDelay delay)
    (hrun : start.Run calls t) :
    t.coalescer = (Coalescer.ofDelay delay).after calls ∧
      t.Attends (waiting (Coalescer.ofDelay delay) [] calls) := by
  induction hrun with
  | start =>
      refine ⟨hidle, hstart, ?_, fun _ hch => absurd hch List.not_mem_nil,
        fun _ hch => absurd hch List.not_mem_nil⟩
      exact hidle ▸ Coalescer.Gathers.ofDelay delay
  | acted calls t source op o _ ho ih =>
      rcases ih with ⟨hcoalescer, hattends⟩
      have hturn := (t.turn_run _ hattends source op o ho).1
      rw [Coalescer.after_append, Coalescer.waiting_append, ← hcoalescer]
      exact ⟨hturn.coalescer, hturn.attends⟩

/-- In a tracker that comes about from one with a sound record and nothing
    gathered, what is gathered are the kinds of the changes that wait, and all
    of it belongs to tracked nodes. Every operation that ends announces what its
    calls of the coalescer release, in batches of all that waits then, each
    change of something and with the cell that is shown for its node, and it
    returns the number of these announcements. -/
theorem Run.announces (delay : Nat) (start t : Tracker) (calls : List Call)
    (hstart : start.store.check = none) (hidle : start.coalescer = Coalescer.ofDelay delay)
    (hrun : start.Run calls t) :
    (∀ h, t.coalescer.pendingFor h =
      Change.kindsFor h (waiting (Coalescer.ofDelay delay) [] calls)) ∧
    (∀ h kinds, t.coalescer.pendingFor h = some kinds →
      kinds.isEmpty = false ∧ t.store.contains h = true) ∧
    ∀ (source : Source) (op : Op) (o : Outcome (Option Nat)), op.run source t = .ok o →
      (∀ n ∈ o.trace, n.IsAccurate) ∧
      reports o.trace = t.coalescer.batches (waiting (Coalescer.ofDelay delay) [] calls)
        (op.calls source t) ∧
      ∀ n, o.value = some n → n = (reports o.trace).length := by
  have hsound := start.store.check_eq_none_iff_sound.mp hstart
  rcases hrun.attends delay start t calls hsound hidle with ⟨_, hattends⟩
  refine ⟨hattends.gathers, fun h kinds hkinds => ?_, fun source op o ho => ?_⟩
  · have hmem : (h, kinds) ∈ Change.batch (waiting (Coalescer.ofDelay delay) [] calls) := by
      rw [← hattends.gathers.toList_eq]
      exact Std.ExtTreeMap.mem_toList_iff_getElem?_eq_some.mpr hkinds
    rcases Change.mem_batch _ hattends.solid _ hmem with ⟨⟨ch, hch, hnode⟩, hsolid⟩
    have htracked := hattends.tracked ch hch
    rw [show ch.node = h from hnode] at htracked
    exact ⟨hsolid, htracked⟩
  · rcases t.turn_run _ hattends source op o ho with ⟨hturn, hvalue⟩
    exact ⟨hturn.accurate, hturn.reports_eq, hvalue⟩

/-- A tracker that tracks a root, its child and its grandchild. -/
def lineTracker : Tracker := { ofSettings {} {} with store := Store.lineOfThree }

/-- A root with one child. -/
def trunk : Source where
  root := some ⟨1⟩
  children h := if h = ⟨1⟩ then [⟨2⟩] else []
  parent h := if h = ⟨2⟩ then some ⟨1⟩ else none
  isLive h := h = ⟨1⟩ ∨ h = ⟨2⟩
  describe _ := none

/-- The same after changes of the child and of the grandchild. -/
def busyTracker : Tracker :=
  let t := lineTracker.attributesChanged ⟨2⟩ .visibility 0
  let t := t.attributesChanged ⟨3⟩ .size 5
  t.attributesChanged ⟨2⟩ .label 10

-- When the grandchild has left, a flush reports the child once, with both kinds,
-- and not the grandchild.
theorem announces_of_busyTracker :
    lineTracker.store.check = none ∧ ∃ calls t, lineTracker.Run calls t ∧
      reports t.flushAttributes.trace =
        [(⟨2⟩, Attributes.visibility.union Attributes.label)] ∧
      t.flushAttributes.value = 1 := by
  have hcheck : lineTracker.store.check = none := by decide +kernel
  have h₁ := Run.acted [] lineTracker trunk (.attributesChanged ⟨2⟩ .visibility 0) _ .start rfl
  have h₂ := Run.acted _ _ trunk (.attributesChanged ⟨3⟩ .size 5) _ h₁ rfl
  have h₃ : lineTracker.Run _ busyTracker :=
    Run.acted _ _ trunk (.attributesChanged ⟨2⟩ .label 10) _ h₂ rfl
  have hok : ((Op.handle (.left ⟨3⟩) 15).run trunk busyTracker).isOk = true := by
    decide +kernel
  cases hleft : (Op.handle (.left ⟨3⟩) 15).run trunk busyTracker with
  | error f =>
      rw [hleft] at hok
      exact absurd hok Bool.false_ne_true
  | ok o =>
      have hrun := Run.acted _ _ trunk (.handle (.left ⟨3⟩) 15) o h₃ hleft
      rcases Run.announces 500 lineTracker o.tracker _ hcheck rfl hrun with ⟨_, _, hall⟩
      rcases hall trunk .flushAttributes _ rfl with ⟨_, hreports, hvalue⟩
      have hbatch : reports o.tracker.flushAttributes.trace =
          [(⟨2⟩, Attributes.visibility.union Attributes.label)] := by
        refine hreports.trans ?_
        simp only [Op.calls, Coalescer.batches, Call.releases, if_true, List.append_nil]
        decide +kernel
      refine ⟨hcheck, _, _, hrun, hbatch, ?_⟩
      rw [hvalue _ rfl, hbatch]
      rfl

end Tracker

end TreeWatch
