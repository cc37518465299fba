import TreeWatch.Proofs.Guards
import TreeWatch.Proofs.Settling

/-!
# Convergence

A scene is changed while its tasks are on their way to a tracker, and a copy
follows what the tracker announces. Changes, deliveries, tasks, ticks and
passes come in any order. After each of them the record is sound and the copy
matches it, and nothing ever ends in a fault. When all tasks were done and no
pass is due, the record holds exactly the scene, without a pass at the end.

The proof is one invariant, `World.InStep`, which every action preserves. It
bundles what holds at all times with the account of the disagreements, which
holds as long as no pass is due. That nothing ends in a fault is part of what is
proved for the scene too, as its mutations are the ones that stop.

## Main definitions

* `World`: A scene, the tasks on their way, a tracker and a copy.
* `World.Action`, `World.step`: What can happen.
* `World.Reached`: The worlds that come about, from an empty scene and an empty
  record or from a record that was just passed over the scene.
* `World.InStep`: The invariant.

## Theorems

* `World.InStep.step`: Every action succeeds and preserves the invariant.
* `World.Reached.inStep`: Every world that is reached satisfies it.
* `World.Reached.converges`: What this means.
-/

namespace TreeWatch

/-- The scenes that the mutations make, with the number of nodes that were
    created in them. The feed may be taken in between. -/
inductive Scene.Grown : Scene → Nat → Prop where
  | empty : Grown {} 0
  | called (s s' : Scene) (n : Nat) (c : Scene.Call) (h : Grown s n) (hok : c.run s = .ok s')
    (hn : n + c.creates < 2 ^ 32) : Grown s' (n + c.creates)
  | taken (s : Scene) (n : Nat) (h : Grown s n) : Grown s.takeFeed.2 n

-- Taking the feed changes nothing else.
theorem Scene.change_takeFeed (s : Scene) : Scene.Change s s.takeFeed.2 [] :=
  .repainted [] (fun _ ht => absurd ht List.not_mem_nil) rfl (fun _ => rfl) fun _ => rfl

theorem Scene.Sound.takeFeed (s : Scene) (n : Nat) (hs : s.Sound n) : s.takeFeed.2.Sound n :=
  hs.repaint s n s.takeFeed.2 (hs.stored.of_slots _ _ _ rfl rfl) rfl (fun _ => rfl) (fun _ => rfl)
    fun _ => List.Perm.refl _

theorem Scene.Grown.sound (s : Scene) (n : Nat) (h : Scene.Grown s n) : s.Sound n := by
  induction h with
  | empty => exact Scene.sound_empty
  | called s s' n c h hok hn ih => exact (ih.call_spec s n c s' hn hok).sound
  | taken s n h ih => exact ih.takeFeed s n

/-- A scene that was grown knows how many of its nodes are live. -/
theorem Scene.Grown.counted (s : Scene) (n : Nat) (h : s.Grown n) : s.Counted := by
  induction h with
  | empty => exact counted_empty
  | called s s' n c h hok hn ih =>
      exact (c.tallies s s' hok).counted n (h.sound s n).stored hn ih
  | taken s n _ ih => exact ih.congr s _ rfl fun _ => rfl

/-- Less than `2 ^ 32` nodes were created. -/
theorem Scene.Grown.lt (s : Scene) (n : Nat) (h : s.Grown n) : n < 2 ^ 32 := by
  induction h with
  | empty => exact Nat.two_pow_pos 32
  | called _ _ _ _ _ _ hn _ => exact hn
  | taken _ _ _ ih => exact ih

/-- A scene, the tasks that were taken from its feed and are not done yet, a
    tracker, a copy of its grid, and the number of nodes created so far. -/
structure World where
  scene : Scene
  inbox : List Task
  tracker : Tracker
  replica : Replica
  created : Nat

namespace World

/-- What can happen: a mutation of the scene, a delivery of its feed, and the
    three operations of the tracker, the first of which does the next task. -/
inductive Action where
  | call (c : Scene.Call)
  | deliver
  | next (now : Nat)
  | tick (now : Nat)
  | reconcile

/-- The tasks that are not done yet, in the order in which they will be. -/
def queue (w : World) : List Task := w.inbox ++ w.scene.feed

/-- The world after an operation of its tracker. -/
def hear {α : Type} (w : World) (o : Outcome α) : World :=
  { w with tracker := o.tracker, replica := w.replica.observe o.trace }

/-- The world after a mutation with this result. If it is refused nothing
    changes. -/
def mutated (w : World) (c : Scene.Call) : Except Scene.Refusal Scene → World
  | .ok s => { w with scene := s, created := w.created + c.creates }
  | .error _ => w

/-- The world after an action. The mutations of the scene are those that stop at an
    index out of range or at a count that does not fit. If there is no next task
    nothing changes. -/
def step (w : World) : Action → Except Fault World
  | .call c => do return w.mutated c (← c.guarded w.scene)
  | .deliver =>
    let (tasks, s) := w.scene.takeFeed
    .ok { w with scene := s, inbox := w.inbox ++ tasks }
  | .next now =>
    match w.inbox with
    | [] => .ok w
    | task :: rest => do
      let o ← w.tracker.handle w.scene.source task now
      return { w.hear o with inbox := rest }
  | .tick now => do
    let o ← w.tracker.tick w.scene.source now
    return w.hear o
  | .reconcile => do
    let o ← w.tracker.reconcile w.scene.source
    return w.hear o

/-- The world after several actions. -/
def run (w : World) (actions : List Action) : Except Fault World := actions.foldlM step w

/-- The worlds that come about. At the beginning the scene and the record are
    empty, or the feed is empty and a pass was just made. The copy matches at
    the beginning. Then come actions, with less than `2 ^ 32` nodes created. -/
inductive Reached : World → Prop where
  | empty (t : Tracker) (q : Replica) (ht : t.store = Store.empty)
    (hq : q.matchesGrid t.store = true) (hnoted : q.mismatches = []) : Reached ⟨{}, [], t, q, 0⟩
  | reconciled (s : Scene) (n : Nat) (hs : s.Grown n) (hfeed : s.feed = []) (t : Tracker)
    (ht : t.store.check = none) (o : Outcome Report) (ho : t.reconcile s.source = .ok o)
    (q : Replica) (hq : q.matchesGrid o.tracker.store = true) (hnoted : q.mismatches = []) :
    Reached ⟨s, [], o.tracker, q, n⟩
  | acted (w w' : World) (a : Action) (hw : Reached w) (hstep : w.step a = .ok w')
    (hn : w'.created < 2 ^ 32) : Reached w'

/-- Scene, record and copy are in order, the record trails the scene, and as
    long as no pass is due every disagreement is accounted for. -/
structure InStep (w : World) : Prop where
  scene : w.scene.Sound w.created
  counted : w.scene.Counted
  few : w.created < 2 ^ 32
  record : w.tracker.store.Sound
  noted : w.replica.mismatches = []
  shown : w.replica.matchesGrid w.tracker.store = true
  trails : w.scene.Trails w.tracker.store w.queue
  accounts : w.tracker.resyncPending = false → w.scene.Accounts w.tracker.store w.queue

namespace InStep

variable (w : World)

/-- A world whose record mirrors its scene, with nothing to be done. -/
theorem of_mirrored (hscene : w.scene.Sound w.created) (hcounted : w.scene.Counted)
    (hfew : w.created < 2 ^ 32) (hrecord : w.tracker.store.Sound)
    (hnoted : w.replica.mismatches = [])
    (hshown : w.replica.matchesGrid w.tracker.store = true) (hqueue : w.queue = [])
    (hm : w.scene.Mirrored w.tracker.store) : w.InStep := by
  refine ⟨hscene, hcounted, hfew, hrecord, hnoted, hshown, ?_, fun _ => ?_⟩
  · rw [hqueue]
    exact Scene.Trails.of_mirrored _ _ _ hscene hm
  · exact Scene.Accounts.of_mirrored _ _ hscene _ _ hm

variable (h : w.InStep)

include h

/-- A mutation of the scene. -/
theorem call (c : Scene.Call) (s : Scene) (hok : c.run w.scene = .ok s)
    (hn : w.created + c.creates < 2 ^ 32) :
    ({ w with scene := s, created := w.created + c.creates } : World).InStep := by
  rcases h.scene.call_spec w.scene w.created c s hn hok with ⟨hsound, hissued, posts, hfeed, hc⟩
  have hqueue : ({ w with scene := s, created := w.created + c.creates } : World).queue =
      w.queue ++ posts := by
    rw [queue, queue, hfeed, List.append_assoc]
  have hcounted := (c.tallies w.scene s hok).counted w.created h.scene.stored hn h.counted
  refine ⟨hsound, hcounted, hn, h.record, h.noted, h.shown, ?_, fun hpending => ?_⟩
  · rw [hqueue]
    exact h.trails.change _ s _ _ _ posts h.scene hissued hc
  · rw [hqueue]
    exact (h.accounts hpending).change _ s _ _ _ posts h.trails h.scene h.record hc

/-- A delivery, after which the same tasks are to be done. -/
theorem deliver : ({ w with
    scene := w.scene.takeFeed.2, inbox := w.inbox ++ w.scene.takeFeed.1 } : World).InStep := by
  have hqueue : ({ w with scene := w.scene.takeFeed.2, inbox := w.inbox ++ w.scene.takeFeed.1 } :
      World).queue = w.queue ++ [] := rfl
  refine ⟨h.scene.takeFeed w.scene w.created, h.counted, h.few, h.record, h.noted, h.shown, ?_,
    fun hpending => ?_⟩
  · rw [hqueue]
    exact h.trails.change _ _ _ _ _ [] h.scene (fun _ hx => hx) w.scene.change_takeFeed
  · rw [hqueue]
    exact (h.accounts hpending).change _ _ _ _ _ [] h.trails h.scene h.record
      w.scene.change_takeFeed

/-- An operation of the tracker that is followed by the copy. -/
theorem hear {α : Type} (o : Outcome α) (rest : List Task) (hsound : o.tracker.store.Sound)
    (htells : Tells w.tracker.store o.trace o.tracker.store)
    (htrails : w.scene.Trails o.tracker.store (rest ++ w.scene.feed))
    (haccounts : o.tracker.resyncPending = false →
      w.scene.Accounts o.tracker.store (rest ++ w.scene.feed)) :
    ({ w.hear o with inbox := rest } : World).InStep := by
  rcases htells w.replica h.shown with ⟨hfollows, hgrid⟩
  exact ⟨h.scene, h.counted, h.few, hsound,
    (hfollows.mismatches_eq w.replica o.trace).trans h.noted, hgrid, htrails, haccounts⟩

/-- An operation that leaves a mirror of the scene. -/
theorem hear_mirrored {α : Type} (o : Outcome α) (hsound : o.tracker.store.Sound)
    (htells : Tells w.tracker.store o.trace o.tracker.store)
    (hroot : o.tracker.store.root = w.scene.source.snapshot.root)
    (hlinks : ∀ x, o.tracker.store.parent x = w.scene.source.snapshot.parent x) :
    (w.hear o).InStep := by
  rcases h.scene.snapshot_links with ⟨hsroot, hslinks⟩
  have hmirrored : w.scene.Mirrored o.tracker.store :=
    ⟨hroot.trans hsroot, fun x => (hlinks x).trans (hslinks x)⟩
  refine h.hear w o w.inbox hsound htells ?_ fun _ => ?_
  · exact h.trails.blend _ _ _ _ _ h.scene (hmirrored.blends _ _ _)
  · exact Scene.Accounts.of_mirrored _ _ h.scene _ _ hmirrored

/-- The next task is done. -/
theorem next (task : Task) (rest : List Task) (hinbox : w.inbox = task :: rest) (now : Nat) :
    ∃ o, w.tracker.handle w.scene.source task now = .ok o ∧
      ({ w.hear o with inbox := rest } : World).InStep := by
  have hqueue : w.queue = task :: (rest ++ w.scene.feed) := by
    rw [queue, hinbox, List.cons_append]
  have htrails := h.trails
  have haccounts := h.accounts
  rw [hqueue] at htrails haccounts
  have hfree := h.scene.not_tangles _ _ _ htrails.root_live h.record task
  rcases w.tracker.handle_edit_spec h.record w.scene.source task now
    (htrails.edits task List.mem_cons_self) hfree with
    ⟨o, asks, ho, hsound, htells, hpending, hhandled⟩
  have hblends := h.scene.blends_handled _ _ _ htrails.root_live task _ asks hhandled
  refine ⟨o, ho, h.hear w o rest hsound htells ?_ fun hdone => ?_⟩
  · exact (htrails.blend _ _ _ _ _ h.scene hblends).tail _ _ _ _
  · -- Without a pass that is due the task did not ask for one either.
    rw [hpending, Bool.or_eq_false_iff] at hdone
    rw [hdone.2] at hhandled
    exact (haccounts hdone.1).handled _ _ h.scene _ _ h.record task _ htrails hhandled

/-- No mutation of the scene stops. -/
theorem step_call (c : Scene.Call) :
    w.step (.call c) = .ok (w.mutated c (c.run w.scene)) := by
  simp only [World.step, c.guarded_eq w.scene w.created h.scene.stored h.few h.counted, bind,
    Except.bind, pure, Except.pure]

/-- Every action succeeds and preserves the invariant, as long as generations do
    not wrap around. -/
theorem step (a : Action) : ∃ w', w.step a = .ok w' ∧ (w'.created < 2 ^ 32 → w'.InStep) := by
  cases a with
  | call c =>
      refine ⟨_, h.step_call w c, fun hn => ?_⟩
      cases hok : c.run w.scene with
      | ok s =>
          rw [hok] at hn
          exact h.call w c s hok hn
      | error e => exact h
  | deliver => exact ⟨_, rfl, fun _ => h.deliver w⟩
  | next now =>
      unfold World.step
      cases hinbox : w.inbox with
      | nil =>
          exact ⟨w, rfl, fun _ => h⟩
      | cons task rest =>
          rcases h.next w task rest hinbox now with ⟨o, ho, hin⟩
          simp only [ho, bind, Except.bind, pure, Except.pure]
          exact ⟨_, rfl, fun _ => hin⟩
  | tick now =>
      rcases w.tracker.tick_spec h.record w.scene.source now with
        ⟨o, ho, hsound, htells, _, hkept, hpassed⟩
      unfold World.step
      simp only [ho, bind, Except.bind, pure, Except.pure]
      refine ⟨_, rfl, fun _ => ?_⟩
      -- Unless a pass was due, a tick leaves the record as it was.
      cases hpending : w.tracker.resyncPending with
      | true => exact h.hear_mirrored w o hsound htells (hpassed hpending).1 (hpassed hpending).2
      | false =>
          refine h.hear w o w.inbox hsound htells ?_ fun _ => ?_
          · exact hkept hpending ▸ h.trails
          · exact hkept hpending ▸ h.accounts hpending
  | reconcile =>
      rcases w.tracker.reconcile_spec h.record w.scene.source with
        ⟨o, ho, hsound, htells, _, hroot, hlinks⟩
      unfold World.step
      simp only [ho, bind, Except.bind, pure, Except.pure]
      exact ⟨_, rfl, fun _ => h.hear_mirrored w o hsound htells hroot hlinks⟩

end InStep

-- The count of created nodes never goes down.
theorem created_le_of_step (w w' : World) (a : Action) (hstep : w.step a = .ok w') :
    w.created ≤ w'.created := by
  have hhear : ∀ {α : Type} (r : Except Fault (Outcome α)) (f : Outcome α → World),
      (∀ o, (f o).created = w.created) → (r >>= fun o => pure (f o)) = Except.ok w' →
      w.created ≤ w'.created := by
    intro α r f hf hr
    cases r with
    | error e => exact absurd hr (by simp only [bind, Except.bind, reduceCtorEq, not_false_eq_true])
    | ok o =>
        simp only [bind, Except.bind, pure, Except.pure, Except.ok.injEq] at hr
        rw [← hr, hf]
  unfold step at hstep
  cases a with
  | call c =>
      cases hc : c.guarded w.scene with
      | error e => simp only [hc, bind, Except.bind, reduceCtorEq] at hstep
      | ok r =>
          simp only [hc, bind, Except.bind, pure, Except.pure, Except.ok.injEq] at hstep
          rw [← hstep]
          cases r with
          | ok s => exact Nat.le_add_right _ _
          | error e => exact Nat.le_refl _
  | deliver =>
      simp only [Except.ok.injEq] at hstep
      rw [← hstep]
  | next now =>
      cases hinbox : w.inbox with
      | nil =>
          simp only [hinbox, Except.ok.injEq] at hstep
          rw [hstep]
      | cons task rest =>
          simp only [hinbox] at hstep
          exact hhear _ (fun o => { w.hear o with inbox := rest }) (fun _ => rfl) hstep
  | tick now => exact hhear _ w.hear (fun _ => rfl) hstep
  | reconcile => exact hhear _ w.hear (fun _ => rfl) hstep

theorem created_le_of_run (w w' : World) (actions : List Action) (hrun : w.run actions = .ok w') :
    w.created ≤ w'.created := by
  induction actions generalizing w with
  | nil =>
      simp only [run, List.foldlM_nil, pure, Except.pure, Except.ok.injEq] at hrun
      rw [hrun]
  | cons a actions ih =>
      rw [run, List.foldlM_cons] at hrun
      cases hstep : w.step a with
      | error e => simp only [hstep, bind, Except.bind, reduceCtorEq] at hrun
      | ok w'' =>
          simp only [hstep, bind, Except.bind] at hrun
          exact (created_le_of_step w w'' a hstep).trans (ih w'' hrun)

/-- Several actions lead from a world that is reached to one that is reached. -/
theorem Reached.run (w w' : World) (actions : List Action) (hw : w.Reached)
    (hrun : w.run actions = .ok w') (hn : w'.created < 2 ^ 32) : w'.Reached := by
  induction actions generalizing w with
  | nil =>
      simp only [World.run, List.foldlM_nil, pure, Except.pure, Except.ok.injEq] at hrun
      exact hrun ▸ hw
  | cons a actions ih =>
      rw [World.run, List.foldlM_cons] at hrun
      cases hstep : w.step a with
      | error e => simp only [hstep, bind, Except.bind, reduceCtorEq] at hrun
      | ok w'' =>
          simp only [hstep, bind, Except.bind] at hrun
          have hle := created_le_of_run w'' w' actions hrun
          exact ih w'' (.acted w w'' a hw hstep (by omega)) hrun

/-- Every world that is reached satisfies the invariant. -/
theorem Reached.inStep (w : World) (h : w.Reached) : w.InStep := by
  induction h with
  | empty t q ht hq hnoted =>
      refine InStep.of_mirrored _ Scene.sound_empty Scene.counted_empty (Nat.two_pow_pos 32) ?_
        hnoted hq rfl ?_
      · exact ht ▸ Store.sound_ofRoot none
      · exact ht ▸ ⟨rfl, Store.parent_ofRoot none⟩
  | reconciled s n hs hfeed t ht o ho q hq hnoted =>
      have hsound := hs.sound s n
      rcases t.reconcile_spec (t.store.check_eq_none_iff_sound.mp ht) s.source with
        ⟨o', ho', hrecord, _, _, hroot, hlinks⟩
      rw [ho, Except.ok.injEq] at ho'
      subst ho'
      rcases hsound.snapshot_links with ⟨hsroot, hslinks⟩
      refine InStep.of_mirrored _ hsound (hs.counted s n) (hs.lt s n) hrecord hnoted hq ?_
        ⟨hroot.trans hsroot, fun x => (hlinks x).trans (hslinks x)⟩
      rw [queue, hfeed]
      rfl
  | acted w w' a hw hstep hn ih =>
      rcases ih.step w a with ⟨w'', hw'', hin⟩
      rw [hstep, Except.ok.injEq] at hw''
      subst hw''
      exact hin hn

/-- In every world that is reached, any action succeeds without a fault, the
    record is sound, and the copy has noted nothing and matches it. If all tasks
    were done and no pass is due, the record holds exactly the scene. -/
theorem Reached.converges (w : World) (h : w.Reached) :
    (∀ a, ∃ w', w.step a = .ok w') ∧ w.tracker.store.check = none ∧
      w.replica.mismatches = [] ∧ w.replica.matchesGrid w.tracker.store = true ∧
      (w.inbox = [] → w.scene.feed = [] → w.tracker.resyncPending = false →
        w.tracker.store.Agrees w.scene.source.snapshot) := by
  have hin := h.inStep w
  refine ⟨fun a => ?_, w.tracker.store.check_eq_none_iff_sound.mpr hin.record, hin.noted, hin.shown,
    fun hinbox hfeed hpending => ?_⟩
  · rcases hin.step w a with ⟨w', hw', _⟩
    exact ⟨w', hw'⟩
  · have hqueue : w.queue = [] := by
      rw [queue, hinbox, hfeed, List.append_nil]
    have htrails := hin.trails
    have haccounts := hin.accounts hpending
    rw [hqueue] at htrails haccounts
    exact hin.scene.agrees_of_mirrored _ _ _ hin.record
      (haccounts.settled _ _ hin.scene _ htrails hin.record)

/-- The tasks of three creations are on their way while the last node is moved to
    the root and its old parent is destroyed. -/
def lateTasks : List Action :=
  [.call (.createRoot "root" Tag.root),
    .call (.create (Handle.ofParts 0 1) "first" Tag.item),
    .call (.create (Handle.ofParts 1 1) "second" Tag.item),
    .deliver, .next 0,
    .call (.reparent (Handle.ofParts 2 1) (Handle.ofParts 0 1)),
    .call (.destroy (Handle.ofParts 1 1)),
    .next 0, .next 0, .deliver, .next 0, .next 0]

-- When all of them are done the record agrees with the scene.
theorem converges_of_lateTasks :
    ∃ w : World, w.Reached ∧ w.scene.root = some (Handle.ofParts 0 1) ∧
      w.scene.children (Handle.ofParts 0 1) = [Handle.ofParts 2 1] ∧
      w.tracker.store.Agrees w.scene.source.snapshot := by
  have hstart : Reached ⟨{}, [], Tracker.ofSettings {} {}, {}, 0⟩ :=
    .empty _ _ rfl (by decide +kernel) rfl
  have hdone : (match run ⟨{}, [], Tracker.ofSettings {} {}, {}, 0⟩ lateTasks with
      | .ok w => decide (w.created < 2 ^ 32 ∧ w.inbox = [] ∧ w.scene.feed = [] ∧
          w.tracker.resyncPending = false ∧ w.scene.root = some (Handle.ofParts 0 1) ∧
          w.scene.children (Handle.ofParts 0 1) = [Handle.ofParts 2 1])
      | .error _ => false) = true := by
    decide +kernel
  cases hrun : run ⟨{}, [], Tracker.ofSettings {} {}, {}, 0⟩ lateTasks with
  | error e =>
      rw [hrun] at hdone
      exact absurd hdone Bool.false_ne_true
  | ok w =>
      rw [hrun] at hdone
      rcases of_decide_eq_true hdone with ⟨hn, hinbox, hfeed, hpending, hroot, hkids⟩
      have hw := hstart.run _ w lateTasks hrun hn
      exact ⟨w, hw, hroot, hkids, (Reached.converges w hw).2.2.2.2 hinbox hfeed hpending⟩

end World

end TreeWatch
