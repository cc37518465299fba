import TreeWatch.Tracker
import TreeWatch.Proofs.FullPass
import TreeWatch.Proofs.Notifications

/-!
# What Trackers Do

The operations of a tracker, as far as they concern its record. A tracker adds
bookkeeping to the passes and the point edits: it counts, writes its journal
and gathers attribute changes. None of that touches the record or what is
announced about it, so each operation does to the record what the pass or the
edit in it does, and it asks for a full pass exactly when the edit does.

## Main definitions

* `Task.Tangles`: Handling the task meets a tangle.
* `Handled`: What a task that is not a pass does to a record.

## Theorems

* `Tracker.notify_spec`: A notification does what its edit does.
* `Tracker.reconcile_spec`: A pass leaves exactly the snapshot.
* `Tracker.handle_spec`: A task without a tangle is handled.
* `Tracker.tick_spec`: A tick does nothing to the record but the pass that was
  asked for.
-/

namespace TreeWatch

open Forest (Under)

/-- Handling the task meets a tangle: the node enters the record there is, or
    it is tracked and enters the one without its subtree. -/
def Task.Tangles (source : Source) (s : Store) : Task → Prop
  | .entered node => PointEdit.Tangled source s node
  | .reparented node =>
    if s.contains node then
      s.root ≠ some node ∧ source.parent node ≠ s.parent node ∧
        PointEdit.Tangled source (s.remove node).2 node
    else PointEdit.Tangled source s node
  | _ => False

/-- What a task that is not a pass does to a record, and whether it asks for a
    pass. -/
inductive Handled (source : Source) (s : Store) : Task → Store → Bool → Prop where
  | entered (node : Handle) (t : Store) (asks : Bool)
    (h : PointEdit.Enters source node s t asks) : Handled source s (.entered node) t asks
  | left (node : Handle) (t : Store) (h : PointEdit.Leaves node s t) :
    Handled source s (.left node) t false
  | reparented (node : Handle) (t : Store) (asks : Bool)
    (h : PointEdit.Moves source node s t asks) : Handled source s (.reparented node) t asks
  | attributes (node : Handle) (kinds : Attributes) :
    Handled source s (.attributes node kinds) s false

namespace Tracker

theorem store_requestResync (t : Tracker) : t.requestResync.store = t.store := by
  unfold requestResync
  split <;> rfl

theorem resyncPending_requestResync (t : Tracker) : t.requestResync.resyncPending = true := by
  unfold requestResync
  split
  · assumption
  · rfl

-- Entries that are written change nothing but the journal.
theorem exists_foldl_write (f : Tracker → Condition → Tracker)
    (hf : ∀ t c, ∃ j, f t c = { t with journal := j }) (conditions : List Condition)
    (t u : Tracker) (hu : ∃ j, u = { t with journal := j }) :
    ∃ j, conditions.foldl f u = { t with journal := j } := by
  induction conditions generalizing u with
  | nil => exact hu
  | cons c conditions ih =>
      rcases hu with ⟨j, rfl⟩
      rcases hf { t with journal := j } c with ⟨j', hj'⟩
      exact ih _ ⟨j', hj'⟩

theorem exists_writeReport (t : Tracker) (kind : Occurrence) (node : Option Handle) (r : Report)
    (durationUs : Option Nat) :
    ∃ j, t.writeReport kind node r durationUs = { t with journal := j } := by
  unfold writeReport
  -- The entry of the edit, the one of a reset, and one for each thing put right.
  refine exists_foldl_write _ (fun t c => ?_) r.recovered t _ ?_
  · cases c with
    | inconsistentSnapshot node kept offered => exact ⟨_, rfl⟩
    | _ => exact ⟨t.journal, rfl⟩
  · cases r.reset with
    | true => exact ⟨_, rfl⟩
    | false => exact ⟨_, rfl⟩

theorem writeReport_keeps (t : Tracker) (kind : Occurrence) (node : Option Handle) (r : Report)
    (durationUs : Option Nat) :
    (t.writeReport kind node r durationUs).store = t.store ∧
      (t.writeReport kind node r durationUs).resyncPending = t.resyncPending := by
  rcases t.exists_writeReport kind node r durationUs with ⟨j, hj⟩
  rw [hj]
  exact ⟨rfl, rfl⟩

theorem exists_requestResync (t : Tracker) :
    ∃ j, t.requestResync = { t with resyncPending := true, journal := j } := by
  unfold requestResync
  by_cases hpending : t.resyncPending = true
  · rw [if_pos hpending]
    exact ⟨t.journal, by rw [← hpending]⟩
  · rw [if_neg hpending]
    exact ⟨_, rfl⟩

/-- What a check does: nothing, or it writes an entry and may ask for a pass. -/
theorem validate_cases (t : Tracker) (source : Source) (node : Handle) :
    (Validity.ofHandle t.settings.validateLive t.store source node = .valid ∧
      t.validate source node = (true, t)) ∨
    (Validity.ofHandle t.settings.validateLive t.store source node ≠ .valid ∧
      ∃ j, t.validate source node = (false,
        { t with
          resyncPending := t.resyncPending ||
            (Validity.ofHandle t.settings.validateLive t.store source node ≠ .untracked ||
              source.isLive node)
          journal := j })) := by
  unfold validate
  dsimp only
  generalize Validity.ofHandle t.settings.validateLive t.store source node = v
  by_cases hvalid : v = .valid
  · rw [hvalid]
    exact Or.inl ⟨rfl, rfl⟩
  · rw [Validity.isValid, if_neg (by rwa [decide_eq_true_eq])]
    refine Or.inr ⟨hvalid, ?_⟩
    by_cases hasks : (decide (v ≠ .untracked) || source.isLive node) = true
    · rcases exists_requestResync (t.write
        { kind := .staleHandle, node := some node, context := some v.text }) with ⟨j, hj⟩
      rw [if_pos hasks, hj, hasks, Bool.or_true]
      exact ⟨j, rfl⟩
    · rw [if_neg hasks, Bool.eq_false_of_not_eq_true hasks, Bool.or_false]
      exact ⟨_, rfl⟩

/-- What a pass does to a tracker. -/
theorem reconcile_cases (t : Tracker) (source : Source) (o : Outcome Report)
    (ho : t.reconcile source = .ok o) :
    ∃ s j, Pass.run t.settings.isStrict source.snapshot { store := t.store } = .ok s ∧
      o = ⟨s.report,
        { t with
          store := s.store
          emitted := t.emitted + s.trace.length
          passes := t.passes + 1
          resyncPending := false
          coalescer := t.coalescer.retain s.store.contains
          journal := j }, s.trace⟩ := by
  unfold reconcile at ho
  cases hrun : Pass.run t.settings.isStrict source.snapshot { store := t.store } with
  | error f => simp only [hrun, bind, Except.bind, reduceCtorEq] at ho
  | ok s =>
      simp only [hrun, bind, Except.bind, pure, Except.pure, Except.ok.injEq] at ho
      rcases exists_writeReport (forgetUntracked _) .passCompleted none s.report (some 0) with
        ⟨j, hj⟩
      rw [hj] at ho
      exact ⟨s, j, rfl, ho.symm⟩

/-- What a notification does to a tracker. -/
theorem notify_cases (t : Tracker) (node : Handle)
    (edit : Tally → Step → Except Fault (Tally × Step)) (o : Outcome Report)
    (ho : t.notify node edit = .ok o) :
    ∃ tally s pending j, edit t.tally { store := t.store } = .ok (tally, s) ∧
      o = ⟨s.report,
        { t with
          store := s.store
          emitted := t.emitted + s.trace.length
          tally := tally
          resyncPending := pending
          coalescer := t.coalescer.retain s.store.contains
          journal := j }, s.trace⟩ := by
  unfold notify at ho
  cases hedit : edit t.tally { store := t.store } with
  | error f => simp only [hedit, bind, Except.bind, reduceCtorEq] at ho
  | ok done =>
      rcases done with ⟨tally, s⟩
      simp only [hedit, bind, Except.bind, pure, Except.pure, Except.ok.injEq] at ho
      have hasked : ∀ u : Tracker, ∃ pending j, (if s.report.resyncRequested = true then
          u.requestResync else u) = { u with resyncPending := pending, journal := j } := by
        intro u
        by_cases hreq : s.report.resyncRequested = true
        · rcases u.exists_requestResync with ⟨j, hj⟩
          exact ⟨true, j, by rw [if_pos hreq, hj]⟩
        · exact ⟨u.resyncPending, u.journal, by rw [if_neg hreq]⟩
      rcases hasked (forgetUntracked _) with ⟨pending, j, hj⟩
      rw [hj] at ho
      by_cases hnoop : s.report.isNoop = true
      · rw [if_pos hnoop] at ho
        exact ⟨tally, s, pending, j, rfl, ho.symm⟩
      · rcases exists_writeReport { forgetUntracked _ with resyncPending := pending, journal := j }
          .notificationApplied (some node) s.report none with ⟨j', hj'⟩
        rw [if_neg hnoop, hj'] at ho
        exact ⟨tally, s, pending, j', rfl, ho.symm⟩

/-- A notification succeeds when its edit does. The record and the trace are
    those of the edit, and a full pass is asked for when the edit asks for
    one. -/
theorem notify_spec (t : Tracker) (node : Handle)
    (edit : Tally → Step → Except Fault (Tally × Step)) (tally : Tally) (s : Step)
    (hedit : edit t.tally { store := t.store } = .ok (tally, s)) :
    ∃ o, t.notify node edit = .ok o ∧ o.tracker.store = s.store ∧ o.trace = s.trace ∧
      o.tracker.resyncPending = (t.resyncPending || s.report.resyncRequested) := by
  unfold notify
  simp only [hedit, bind, Except.bind]
  -- Bookkeeping up to the point where a pass may be asked for.
  generalize hm : forgetUntracked _ = m
  have hstore : m.store = s.store := hm ▸ rfl
  have hpending : m.resyncPending = t.resyncPending := hm ▸ rfl
  -- Then the request, and last the report.
  have hasked : ∀ m', m' = (if s.report.resyncRequested = true then m.requestResync else m) →
      m'.store = s.store ∧
        m'.resyncPending = (t.resyncPending || s.report.resyncRequested) := by
    rintro m' rfl
    cases s.report.resyncRequested with
    | true =>
        rw [if_pos rfl, store_requestResync, resyncPending_requestResync, Bool.or_true]
        exact ⟨hstore, rfl⟩
    | false =>
        rw [if_neg Bool.false_ne_true, Bool.or_false]
        exact ⟨hstore, hpending⟩
  rcases hasked _ rfl with ⟨hstore', hpending'⟩
  by_cases hnoop : s.report.isNoop = true
  · rw [if_pos hnoop]
    exact ⟨_, rfl, hstore', rfl, hpending'⟩
  · rw [if_neg hnoop]
    rcases writeReport_keeps (if s.report.resyncRequested = true then m.requestResync else m)
      .notificationApplied (some node) s.report none with ⟨hwrite, hwrite'⟩
    exact ⟨_, rfl, hwrite.trans hstore', rfl, hwrite'.trans hpending'⟩

-- A notification fails only when its edit does.
theorem edit_of_notify (t : Tracker) (node : Handle)
    (edit : Tally → Step → Except Fault (Tally × Step)) (o : Outcome Report)
    (ho : t.notify node edit = .ok o) :
    ∃ tally s, edit t.tally { store := t.store } = .ok (tally, s) ∧ o.tracker.store = s.store ∧
      o.trace = s.trace := by
  cases hedit : edit t.tally { store := t.store } with
  | error f =>
      unfold notify at ho
      simp only [hedit, bind, Except.bind, reduceCtorEq] at ho
  | ok done =>
      rcases t.notify_spec node edit done.1 done.2 hedit with ⟨o', ho', hstore, htrace, _⟩
      rw [ho, Except.ok.injEq] at ho'
      subst ho'
      exact ⟨done.1, done.2, rfl, hstore, htrace⟩

section Operations

variable (t : Tracker) (ht : t.store.Sound) (source : Source)

include ht

/-- A pass succeeds, whatever the source says. It leaves the root and the links
    of the snapshot, and no further pass is due. -/
theorem reconcile_spec :
    ∃ o, t.reconcile source = .ok o ∧ o.tracker.store.Sound ∧
      Tells t.store o.trace o.tracker.store ∧ o.tracker.resyncPending = false ∧
      o.tracker.store.root = source.snapshot.root ∧
      ∀ x, o.tracker.store.parent x = source.snapshot.parent x := by
  rcases Pass.run_spec source.snapshot source.proper_snapshot { store := t.store } ht with
    ⟨s, hrun, hsound, hroot, hlinks, ⟨trace, htrace, htells⟩, _, _⟩
  rw [List.nil_append] at htrace
  subst htrace
  unfold reconcile
  simp only [hrun, bind, Except.bind]
  generalize hm : forgetUntracked _ = m
  have hstore : m.store = s.store := hm ▸ rfl
  have hpending : m.resyncPending = false := hm ▸ rfl
  rcases writeReport_keeps m .passCompleted none s.report (some 0) with ⟨hwrite, hwrite'⟩
  refine ⟨_, rfl, ?_⟩
  rw [hwrite, hwrite', hstore, hpending]
  exact ⟨hsound, htells, rfl, hroot, hlinks⟩

omit ht in
/-- Announcing attribute changes leaves the record alone. -/
theorem publish_spec (batch : List (Handle × Attributes)) :
    (t.publish batch).tracker.store = t.store ∧
      (t.publish batch).tracker.resyncPending = t.resyncPending ∧
      Tells t.store (t.publish batch).trace t.store := by
  have htells : Tells t.store (t.publish batch).trace t.store := by
    refine tells_quiet t.store _ fun n hn => ?_
    rcases List.mem_filterMap.mp hn with ⟨e, _, he⟩
    rcases Option.map_eq_some_iff.mp he with ⟨i, _, rfl⟩
    exact ⟨rfl, Or.inr ⟨i, _, _, rfl⟩⟩
  refine ⟨?_, ?_, htells⟩
  · simp only [publish]
    split <;> rfl
  · simp only [publish]
    split <;> rfl

/-- A point edit without a tangle is handled: the record changes as the edit
    says and a copy can follow. -/
theorem handle_edit_spec (task : Task) (now : Nat) (hedit : task.schedulesPass = false)
    (hfree : ¬ task.Tangles source t.store) :
    ∃ o asks, t.handle source task now = .ok o ∧ o.tracker.store.Sound ∧
      Tells t.store o.trace o.tracker.store ∧
      o.tracker.resyncPending = (t.resyncPending || asks) ∧
      Handled source t.store task o.tracker.store asks := by
  -- The step starts with the record of the tracker and without a trace.
  have hstep : ∀ (node : Handle) (edit : Tally → Step → Except Fault (Tally × Step))
      (tally : Tally) (s : Step) (asks : Bool),
      edit t.tally { store := t.store } = .ok (tally, s) → Step.Keeps { store := t.store } s →
      s.report.resyncRequested = asks →
      ∃ o, t.notify node edit = .ok o ∧ o.tracker.store = s.store ∧ s.store.Sound ∧
        Tells t.store o.trace s.store ∧ o.tracker.resyncPending = (t.resyncPending || asks) := by
    intro node edit tally s asks hok hkeep hreq
    rcases t.notify_spec node edit tally s hok with ⟨o, ho, hstore, htrace, hpending⟩
    rcases hkeep.tells with ⟨trace, heq, htells⟩
    rw [List.nil_append] at heq
    exact ⟨o, ho, hstore, hkeep.sound, htrace ▸ heq ▸ htells, hreq ▸ hpending⟩
  cases task with
  | cycleCompleted => exact absurd hedit.symm Bool.false_ne_true
  | resync => exact absurd hedit.symm Bool.false_ne_true
  | attributes node kinds =>
      refine ⟨_, false, rfl, ?_⟩
      unfold attributesChanged
      split <;>
        exact ⟨ht, tells_nil t.store, (Bool.or_false _).symm, .attributes node kinds⟩
  | entered node =>
      rcases PointEdit.entered_spec source node t.tally { store := t.store } ht hfree with
        ⟨tally, s, asks, hok, hkeep, hreq, henters⟩
      rcases hstep node _ tally s asks hok hkeep hreq with ⟨o, ho, hstore, hsound, htells, hpending⟩
      refine ⟨o, asks, ho, ?_⟩
      rw [hstore]
      exact ⟨hsound, htells, hpending, .entered node s.store asks henters⟩
  | left node =>
      rcases PointEdit.left_spec source node t.tally { store := t.store } ht with
        ⟨tally, s, hok, hkeep, hreq, hleaves⟩
      rcases hstep node _ tally s false hok hkeep hreq with
        ⟨o, ho, hstore, hsound, htells, hpending⟩
      refine ⟨o, false, ho, ?_⟩
      rw [hstore]
      exact ⟨hsound, htells, hpending, .left node s.store hleaves⟩
  | reparented node =>
      have hin : t.store.contains node = false → ¬ PointEdit.Tangled source t.store node := by
        intro hnode
        rwa [Task.Tangles, if_neg (by rw [hnode]; exact Bool.false_ne_true)] at hfree
      have hout : t.store.root ≠ some node → source.parent node ≠ t.store.parent node →
          ¬ PointEdit.Tangled source (t.store.remove node).2 node := by
        intro hroot hmoved htangled
        by_cases hnode : t.store.contains node = true
        · rw [Task.Tangles, if_pos hnode] at hfree
          exact hfree ⟨hroot, hmoved, htangled⟩
        · rw [Bool.not_eq_true] at hnode
          rw [Store.remove, hnode, Bool.not_false, if_pos rfl] at htangled
          exact hin hnode htangled
      rcases PointEdit.reparented_spec source node t.tally { store := t.store } ht hin hout with
        ⟨tally, s, asks, hok, hkeep, hreq, hmoves⟩
      rcases hstep node _ tally s asks hok hkeep hreq with ⟨o, ho, hstore, hsound, htells, hpending⟩
      refine ⟨o, asks, ho, ?_⟩
      rw [hstore]
      exact ⟨hsound, htells, hpending, .reparented node s.store asks hmoves⟩

/-- Any task without a tangle is handled. The record stays sound and a copy can
    follow. -/
theorem handle_spec (task : Task) (now : Nat) (hfree : ¬ task.Tangles source t.store) :
    ∃ o, t.handle source task now = .ok o ∧ o.tracker.store.Sound ∧
      Tells t.store o.trace o.tracker.store := by
  have hpass : ∃ o, t.reconcile source = .ok o ∧ o.tracker.store.Sound ∧
      Tells t.store o.trace o.tracker.store := by
    rcases t.reconcile_spec ht source with ⟨o, ho, hsound, htells, _⟩
    exact ⟨o, ho, hsound, htells⟩
  cases hedit : task.schedulesPass with
  | false =>
      rcases t.handle_edit_spec ht source task now hedit hfree with ⟨o, _, ho, hsound, htells, _⟩
      exact ⟨o, ho, hsound, htells⟩
  | true =>
      cases task with
      | cycleCompleted => exact hpass
      | resync => exact hpass
      | entered node => exact absurd hedit Bool.false_ne_true
      | left node => exact absurd hedit Bool.false_ne_true
      | reparented node => exact absurd hedit Bool.false_ne_true
      | attributes node kinds => exact absurd hedit Bool.false_ne_true

/-- A tick makes the pass that was asked for and does nothing else to the
    record. -/
theorem tick_spec (now : Nat) :
    ∃ o, t.tick source now = .ok o ∧ o.tracker.store.Sound ∧
      Tells t.store o.trace o.tracker.store ∧ o.tracker.resyncPending = false ∧
      (t.resyncPending = false → o.tracker.store = t.store) ∧
      (t.resyncPending = true → o.tracker.store.root = source.snapshot.root ∧
        ∀ x, o.tracker.store.parent x = source.snapshot.parent x) := by
  -- What comes after the pass, or instead of it.
  have hflush : ∀ u : Tracker, ∃ f, { u with coalescer := (u.coalescer.flushDue now).2 }.publish
      (u.coalescer.flushDue now).1 = f ∧ f.tracker.store = u.store ∧
      f.tracker.resyncPending = u.resyncPending ∧ Tells u.store f.trace u.store :=
    fun u => ⟨_, rfl, publish_spec _ _⟩
  unfold tick
  by_cases hpending : t.resyncPending = true
  · rcases t.reconcile_spec ht source with ⟨o, ho, hsound, htells, hdone, hroot, hlinks⟩
    rcases hflush o.tracker with ⟨f, hf, hstore, hkept, htells'⟩
    rw [if_pos hpending]
    simp only [ho, bind, Except.bind, pure, Except.pure, hf]
    refine ⟨_, rfl, ?_, ?_, hkept.trans hdone, fun h => ?_, fun _ => ?_⟩
    · exact hstore ▸ hsound
    · rw [hstore]
      exact htells.append _ _ _ _ _ htells'
    · exact absurd (hpending.symm.trans h) (Ne.symm Bool.false_ne_true)
    · rw [hstore]
      exact ⟨hroot, hlinks⟩
  · rcases hflush t with ⟨f, hf, hstore, hkept, htells⟩
    rw [if_neg hpending]
    simp only [bind, Except.bind, pure, Except.pure, hf, List.nil_append]
    rw [Bool.not_eq_true] at hpending
    refine ⟨_, rfl, ?_, ?_, hkept.trans hpending, fun _ => hstore, fun h => ?_⟩
    · exact hstore ▸ ht
    · rw [hstore]
      exact htells
    · exact absurd (hpending.symm.trans h) Bool.false_ne_true

end Operations

end Tracker

end TreeWatch
