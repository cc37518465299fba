import TreeWatch.Proofs.IdlePass
import TreeWatch.Proofs.Storms
import TreeWatch.Rehearsal

/-!
# Rehearsals End Clean

A producer applies the frames of a storm to a scene, and whenever it likes the
model side does the tasks that are queued. The scene may be several frames
ahead of them. Still, every rehearsal ends with a record that holds exactly the
scene and a copy that matches it, and the closing pass finds nothing to do.

Which scene that is, how many operations changed it and what is queued does not
depend on the tracker. `Rehearsal.course` says it without one, so a rehearsal
cannot end clean by leaving out a frame or a move. The operations of a course are
those that stop at a fault, and none of them does.

Each frame ends with the request of a pass, so either the queue is empty and
the record mirrors the scene, or the last thing queued is a pass. This is what
`Session.Attuned` adds to the invariants of scene, record and copy. It does not
matter what the mode lets through in between: the tasks that are handled leave
a record that trails the scene, and none of them meets a tangle.

## Main definitions

* `Scene.Serves`: What an operation beside a scene leaves in order.
* `Course`, `Rehearsal.course`: The scene, the changes and the queue of a
  rehearsal, without a tracker.
* `Session.Attuned`: The invariant of a rehearsal.
* `Session.Clean`, `Session.Reports`: A clean end, and a summary that tells what
  there is to see.
* `Rehearsal.creations`: How many nodes a rehearsal creates.

## Theorems

* `Scene.Sound.serves_handle`, `Scene.Sound.serves_drain`,
  `Scene.Sound.serves_tick`: The operations of a tracker.
* `Session.Attuned.produce`, `Session.Attuned.perform`: The moves of both sides.
* `Session.Attuned.settle`, `Session.Attuned.closing`: The end.
* `Rehearsal.attuned_playFrom`: A rehearsal takes its course.
* `Rehearsal.play_clean`: Every rehearsal ends clean.
-/

namespace TreeWatch

namespace Scene

/-- What an operation of the tracker `t` beside a scene leaves in order: the
    record is sound and trails the scene, and a copy can follow. -/
structure Serves {α : Type} (s : Scene) (t : Tracker) (o : Outcome α) : Prop where
  record : o.tracker.store.Sound
  trails : s.Trails o.tracker.store []
  tells : Tells t.store o.trace o.tracker.store

namespace Serves

variable {α β γ : Type} (s : Scene) (t : Tracker)

-- Nothing is done.
theorem idle (ht : t.store.Sound) (htr : s.Trails t.store []) (value : α) :
    s.Serves t ⟨value, t, []⟩ :=
  ⟨ht, htr, tells_nil t.store⟩

-- One operation after another.
theorem trans (o : Outcome α) (o' : Outcome β) (value : γ) (h : s.Serves t o)
    (h' : s.Serves o.tracker o') : s.Serves t ⟨value, o'.tracker, o.trace ++ o'.trace⟩ :=
  ⟨h'.record, h'.trails, h.tells.append _ _ _ _ _ h'.tells⟩

end Serves

section Operations

variable (s : Scene) (n : Nat) (hs : s.Sound n) (t : Tracker) (ht : t.store.Sound)

include hs ht

/-- After a pass the record mirrors the scene. -/
theorem Sound.serves_reconcile :
    ∃ o, t.reconcile s.source = .ok o ∧ s.Serves t o ∧ s.Mirrored o.tracker.store := by
  rcases t.reconcile_spec ht s.source with ⟨o, ho, hsound, htells, _, hroot, hlinks⟩
  rcases hs.snapshot_links with ⟨hsroot, hslinks⟩
  have hm : s.Mirrored o.tracker.store :=
    ⟨hroot.trans hsroot, fun x => (hlinks x).trans (hslinks x)⟩
  exact ⟨o, ho, ⟨hsound, .of_mirrored s n _ hs hm, htells⟩, hm⟩

variable (htr : s.Trails t.store [])

include htr

/-- A task, which may be a pass. -/
theorem Sound.serves_handle (task : Task) (now : Nat) :
    ∃ o, t.handle s.source task now = .ok o ∧ s.Serves t o ∧
      (task.schedulesPass = true → s.Mirrored o.tracker.store) := by
  have hpass : ∃ o, t.reconcile s.source = .ok o ∧ s.Serves t o ∧
      (task.schedulesPass = true → s.Mirrored o.tracker.store) := by
    rcases hs.serves_reconcile s n t ht with ⟨o, ho, hserves, hm⟩
    exact ⟨o, ho, hserves, fun _ => hm⟩
  have hedit : task.schedulesPass = false → ∃ o, t.handle s.source task now = .ok o ∧
      s.Serves t o ∧ (task.schedulesPass = true → s.Mirrored o.tracker.store) := by
    intro hedit
    have hfree := hs.not_tangles s n t.store htr.root_live ht task
    rcases t.handle_edit_spec ht s.source task now hedit hfree with
      ⟨o, asks, ho, hsound, htells, _, hhandled⟩
    have hblends := hs.blends_handled s n t.store htr.root_live task _ asks hhandled
    refine ⟨o, ho, ⟨hsound, htr.blend s n _ _ [] hs hblends, htells⟩, fun hpass => ?_⟩
    exact absurd (hedit.symm.trans hpass) Bool.false_ne_true
  cases task with
  | cycleCompleted => exact hpass
  | resync => exact hpass
  | entered node => exact hedit rfl
  | left node => exact hedit rfl
  | reparented node => exact hedit rfl
  | attributes node kinds => exact hedit rfl

omit ht htr in
-- Tasks one after the other, each continuing the outcome of those before.
theorem Sound.serves_edits (edits : List Task) (now : Nat) (o : Outcome Report)
    (h : s.Serves t o) :
    ∃ o', edits.foldlM (fun acc task => Tracker.followedBy acc fun t =>
      t.handle s.source task now) o = .ok o' ∧ s.Serves t o' := by
  induction edits generalizing o with
  | nil => exact ⟨o, rfl, h⟩
  | cons task edits ih =>
      rcases hs.serves_handle s n o.tracker h.record h.trails task now with
        ⟨done, hdone, hserves, _⟩
      rcases ih _ (h.trans s t o done (o.value.merge done.value) hserves) with ⟨o', ho', h'⟩
      refine ⟨o', ?_, h'⟩
      rw [List.foldlM_cons]
      simp only [Tracker.followedBy, hdone, bind, Except.bind, pure, Except.pure]
      exact ho'

/-- All that is queued. If a pass is among it the record mirrors the scene
    afterwards, and if nothing is queued nothing happens. -/
theorem Sound.serves_drain (tasks : List Task) (now : Nat) :
    ∃ o, t.drain s.source tasks now = .ok o ∧ s.Serves t o ∧
      (tasks.any Task.schedulesPass = true → s.Mirrored o.tracker.store) ∧
      (tasks = [] → o.tracker = t) := by
  rcases hs.serves_edits s n t (tasks.filter fun task => !task.schedulesPass) now ⟨{}, t, []⟩
    (.idle s t ht htr ({} : Report)) with ⟨done, hdone, hserves⟩
  unfold Tracker.drain
  simp only [hdone, bind, Except.bind]
  by_cases hpass : tasks.any Task.schedulesPass = true
  · rcases hs.serves_reconcile s n done.tracker hserves.record with ⟨o, ho, hserves', hm⟩
    rw [if_pos hpass]
    simp only [Tracker.followedBy, ho, bind, Except.bind, pure, Except.pure]
    refine ⟨_, rfl, hserves.trans s t done o _ hserves', fun _ => hm, fun hnil => ?_⟩
    rw [hnil] at hpass
    exact absurd hpass Bool.false_ne_true
  · rw [if_neg hpass]
    refine ⟨done, rfl, hserves, fun h => absurd h hpass, fun hnil => ?_⟩
    rw [hnil] at hdone
    exact (congrArg Outcome.tracker (Except.ok.inj hdone)).symm

/-- What is due. A record that mirrors the scene goes on doing so. -/
theorem Sound.serves_tick (now : Nat) :
    ∃ o, t.tick s.source now = .ok o ∧ s.Serves t o ∧
      (s.Mirrored t.store → s.Mirrored o.tracker.store) := by
  rcases t.tick_spec ht s.source now with ⟨o, ho, hsound, htells, _, hkept, hpassed⟩
  refine ⟨o, ho, ?_⟩
  cases hpending : t.resyncPending with
  | false =>
      have hsame := hkept hpending
      exact ⟨⟨hsound, hsame ▸ htr, htells⟩, fun hm => hsame ▸ hm⟩
  | true =>
      rcases hpassed hpending with ⟨hroot, hlinks⟩
      rcases hs.snapshot_links with ⟨hsroot, hslinks⟩
      have hm : s.Mirrored o.tracker.store :=
        ⟨hroot.trans hsroot, fun x => (hlinks x).trans (hslinks x)⟩
      exact ⟨⟨hsound, .of_mirrored s n _ hs hm, htells⟩, fun _ => hm⟩

omit hs in
/-- A release of gathered changes leaves the record alone. -/
theorem serves_flush :
    s.Serves t t.flushAttributes ∧ t.flushAttributes.tracker.store = t.store := by
  rcases Tracker.publish_spec { t with coalescer := t.coalescer.flush.2 } t.coalescer.flush.1 with
    ⟨hpublished, _, htells⟩
  have hstore : t.flushAttributes.tracker.store = t.store := hpublished
  refine ⟨⟨hstore ▸ ht, hstore ▸ htr, ?_⟩, hstore⟩
  rw [hstore]
  exact htells

end Operations

end Scene

/-- What becomes of a scene in a rehearsal: the scene itself, how many operations
    changed it, and the tasks that are queued. -/
structure Course where
  scene : Scene
  changes : Nat := 0
  queue : List Task := []

namespace Course

/-- The producer applies a frame, posts what the mode lets through of the feed, and
    asks for a pass. -/
def produce (c : Course) (r : Rehearsal) (frame : List SceneOp) : Except Fault Course := do
  let (changed, scene) ← Storm.Guarded.applyFrame r.storm.maxNodes frame c.scene
  let (tasks, scene) := scene.takeFeed
  return {
    scene := scene
    changes := c.changes + changed
    queue := c.queue ++ (r.mode.passes tasks ++ [.cycleCompleted]) }

/-- A move takes the next task off the queue, or all tasks, or none. -/
def move (c : Course) : Move → Course
  | .handle => { c with queue := c.queue.tail }
  | .drain => { c with queue := [] }
  | .tick => c

/-- Frames from the one with number `i` on, each followed by the moves of the
    schedule. -/
def playFrom (r : Rehearsal) (schedule : Schedule) (i : Nat) :
    List (List SceneOp) → Course → Except Fault Course
  | [], c => .ok c
  | frame :: rest, c => do
    let c ← c.produce r frame
    playFrom r schedule (i + 1) rest (((schedule i).map Prod.fst).foldl move c)

theorem scene_moves (c : Course) (moves : List Move) :
    (moves.foldl move c).scene = c.scene := by
  induction moves generalizing c with
  | nil => rfl
  | cons m moves ih =>
      refine (ih (c.move m)).trans ?_
      cases m <;> rfl

end Course

/-- The scene, the changes and the queue of a rehearsal after these frames. At the
    beginning there is the regular scene, and nothing is queued. -/
def Rehearsal.course (r : Rehearsal) (schedule : Schedule) (frames : List (List SceneOp)) :
    Except Fault Course := do
  let scene ← Scene.Guarded.populate {} r.breadth r.depth
  Course.playFrom r schedule 0 frames ⟨scene.takeFeed.2, 0, []⟩

namespace Session

/-- What does not depend on the tracker in a session. -/
def course (s : Session) : Course := ⟨s.scene, s.changes, s.channel.queue⟩

/-- Scene, record and copy are in order, everything that the scene told of was
    handed over, and the record mirrors the scene or a pass is the last thing
    queued. -/
structure Attuned (s : Session) (n : Nat) : Prop where
  scene : s.scene.Sound n
  counted : s.scene.Counted
  handed : s.scene.feed = []
  record : s.tracker.store.Sound
  trails : s.scene.Trails s.tracker.store []
  noted : s.replica.mismatches = []
  shown : s.replica.matchesGrid s.tracker.store = true
  receiving : s.channel.isReceiving = true
  due : (s.channel.queue = [] ∧ s.scene.Mirrored s.tracker.store) ∨
    ∃ front, s.channel.queue = front ++ [.cycleCompleted]

/-- The closing pass of the session had nothing to change, according to its report.
    The record holds exactly the scene, is sound and tracks as many nodes as are
    live. The copy matches it and has noted nothing, and nothing is queued. -/
structure Clean (s : Session) (closing : Report) : Prop where
  noop : closing.isNoop = true
  agrees : s.tracker.store.Agrees s.scene.source.snapshot
  check : s.tracker.store.check = none
  shown : s.replica.matchesGrid s.tracker.store = true
  noted : s.replica.mismatches = []
  tracks : s.tracker.store.size = s.scene.live
  counted : s.scene.Counted
  done : s.channel.queue = []

/-- The summary tells what there is to see after a closing pass. -/
structure Reports (s : Session) (closing : Report) (summary : Summary) : Prop where
  converged : summary.converged = closing.isNoop
  replica : summary.replicaMatches = s.replica.matchesGrid s.tracker.store
  check : summary.invariantError = s.tracker.store.check.map Violation.message
  mismatches : summary.mismatches = s.replica.mismatches.map Mismatch.message
  tracked : summary.tracked = s.tracker.store.size
  live : summary.live = s.scene.live
  changes : summary.opsApplied = s.changes

namespace Attuned

variable (s : Session) (n : Nat) (h : s.Attuned n)

include h

/-- The model side did something, and the copy follows. -/
theorem absorb {α : Type} (o : Outcome α) (channel : Channel) (hserves : s.scene.Serves s.tracker o)
    (hreceiving : channel.isReceiving = true)
    (hdue : (channel.queue = [] ∧ s.scene.Mirrored o.tracker.store) ∨
      ∃ front, channel.queue = front ++ [.cycleCompleted]) :
    ({ s with channel := channel }.absorb o).Attuned n := by
  rcases hserves.tells s.replica h.shown with ⟨hfollows, hgrid⟩
  exact ⟨h.scene, h.counted, h.handed, hserves.record, hserves.trails,
    (hfollows.mismatches_eq s.replica o.trace).trans h.noted, hgrid, hreceiving, hdue⟩

/-- The producer applies a frame, hands over what the mode lets through and
    asks for a pass. -/
theorem produce (r : Rehearsal) (frame : List SceneOp)
    (hn : n + (Storm.applyFrame r.storm.maxNodes frame s.scene).2.arrivals < 2 ^ 32) :
    s.course.produce r frame = .ok (s.produce r frame).course ∧ (s.produce r frame).Attuned
      (n + (Storm.applyFrame r.storm.maxNodes frame s.scene).2.arrivals) := by
  have harrivals : s.scene.arrivals = 0 := by
    rw [Scene.arrivals, h.handed, List.countP_nil]
  have hleads := Storm.leads_applyFrame r.storm.maxNodes frame s.scene
  rcases hleads.spec s.scene _ n (harrivals.symm ▸ h.scene) hn with ⟨hsound, hcounted, htrails⟩
  have hpost : ∀ tasks, s.channel.postAll tasks =
      { s.channel with queue := s.channel.queue ++ tasks } := fun tasks => if_pos h.receiving
  refine ⟨?_, hsound.takeFeed _ _, hcounted h.counted, rfl, h.record, ?_, h.noted, h.shown,
    (congrArg Channel.isReceiving (hpost _)).trans h.receiving,
    Or.inr ⟨s.channel.queue ++ r.mode.passes
      (Storm.applyFrame r.storm.maxNodes frame s.scene).2.takeFeed.1, ?_⟩⟩
  · have happly := Storm.Guarded.applyFrame_eq r.storm.maxNodes frame s.scene n
      (harrivals.symm ▸ h.scene) h.counted hn
    simp only [course, Session.produce, Course.produce, happly, hpost, bind, Except.bind, pure,
      Except.pure]
  · exact (htrails _ h.trails).change _ _ _ _ [] [] hsound (fun _ hx => hx)
      (Scene.change_takeFeed _)
  · exact (congrArg Channel.queue (hpost _)).trans (List.append_assoc _ _ _).symm

/-- The next task is done, if there is one. -/
theorem handleNext (now : Nat) :
    ∃ s', s.handleNext now = .ok s' ∧ s'.course = s.course.move .handle ∧ s'.Attuned n := by
  unfold Session.handleNext Channel.next course Course.move
  cases hqueue : s.channel.queue with
  | nil =>
      cases s.channel.senders.any id with
      | true => exact ⟨s, rfl, congrArg _ hqueue, h⟩
      | false => exact ⟨s, rfl, congrArg _ hqueue, h⟩
  | cons task rest =>
      rcases h.scene.serves_handle _ _ s.tracker h.record h.trails task now with
        ⟨o, ho, hserves, hpass⟩
      simp only [ho, bind, Except.bind, pure, Except.pure]
      refine ⟨_, rfl, rfl, h.absorb s n o _ hserves h.receiving ?_⟩
      -- The queue was not empty, so a pass is the last thing in it.
      rcases h.due with ⟨hnil, _⟩ | ⟨front, hfront⟩
      · rw [hqueue] at hnil
        exact absurd hnil (List.cons_ne_nil task rest)
      · rw [hqueue] at hfront
        cases front with
        | nil =>
            rcases List.cons.inj hfront with ⟨rfl, hrest⟩
            exact Or.inl ⟨hrest, hpass rfl⟩
        | cons first front => exact Or.inr ⟨front, (List.cons.inj hfront).2⟩

/-- All that is queued is done. Afterwards the record mirrors the scene. -/
theorem drain (now : Nat) :
    ∃ s', s.drain now = .ok s' ∧ s'.course = s.course.move .drain ∧ s'.Attuned n ∧
      s'.scene.Mirrored s'.tracker.store := by
  rcases h.scene.serves_drain _ _ s.tracker h.record h.trails s.channel.queue now with
    ⟨o, ho, hserves, hpass, hidle⟩
  have hm : s.scene.Mirrored o.tracker.store := by
    rcases h.due with ⟨hnil, hm⟩ | ⟨front, hfront⟩
    · exact hidle hnil ▸ hm
    · refine hpass ?_
      rw [hfront, List.any_append]
      exact Bool.or_true _
  unfold Session.drain Channel.drain
  simp only [ho, bind, Except.bind, pure, Except.pure]
  exact ⟨_, rfl, rfl, h.absorb s n o _ hserves h.receiving (Or.inl ⟨rfl, hm⟩), hm⟩

/-- What is due is done. -/
theorem tick (now : Nat) :
    ∃ s', s.tick now = .ok s' ∧ s'.course = s.course.move .tick ∧ s'.Attuned n := by
  rcases h.scene.serves_tick _ _ s.tracker h.record h.trails now with ⟨o, ho, hserves, hkept⟩
  unfold Session.tick
  simp only [ho, bind, Except.bind, pure, Except.pure]
  refine ⟨_, rfl, rfl, h.absorb s n o s.channel hserves h.receiving ?_⟩
  exact h.due.imp_left fun hdue => ⟨hdue.1, hkept hdue.2⟩

/-- Any move of the model side. -/
theorem perform (move : Move) (now : Nat) :
    ∃ s', s.perform move now = .ok s' ∧ s'.course = s.course.move move ∧ s'.Attuned n := by
  cases move with
  | handle => exact h.handleNext s n now
  | drain =>
      rcases h.drain s n now with ⟨s', hs', hcourse, h', _⟩
      exact ⟨s', hs', hcourse, h'⟩
  | tick => exact h.tick s n now

theorem performAll (moves : List (Move × Nat)) :
    ∃ s', s.performAll moves = .ok s' ∧
      s'.course = (moves.map Prod.fst).foldl Course.move s.course ∧ s'.Attuned n := by
  induction moves generalizing s with
  | nil => exact ⟨s, rfl, rfl, h⟩
  | cons m moves ih =>
      rcases h.perform s n m.1 m.2 with ⟨s₁, hs₁, hcourse₁, h₁⟩
      rcases ih s₁ h₁ with ⟨s', hs', hcourse, h'⟩
      refine ⟨s', ?_, ?_, h'⟩
      · rw [Session.performAll, List.foldlM_cons, hs₁]
        exact hs'
      · rw [hcourse, hcourse₁, List.map_cons, List.foldl_cons]

/-- All that is queued is done and all that is gathered is released. Afterwards the
    record mirrors the scene. -/
theorem settle (now : Nat) :
    ∃ m, s.settle now = .ok m ∧ m.course = s.course.move .drain ∧ m.Attuned n ∧
      m.scene.Mirrored m.tracker.store := by
  rcases h.drain s n now with ⟨s₁, hs₁, hcourse, h₁, hm₁⟩
  rcases s₁.scene.serves_flush s₁.tracker h₁.record h₁.trails with ⟨hflush, hstore⟩
  have hm : s₁.scene.Mirrored s₁.tracker.flushAttributes.tracker.store := hstore ▸ hm₁
  refine ⟨s₁.absorb s₁.tracker.flushAttributes, ?_, hcourse,
    h₁.absorb s₁ n _ s₁.channel hflush h₁.receiving (h₁.due.imp_left fun hdue => ⟨hdue.1, hm⟩), hm⟩
  rw [Session.settle, hs₁]
  rfl

/-- The closing pass finds a record that holds exactly the scene. -/
theorem closing (hm : s.scene.Mirrored s.tracker.store) (hqueue : s.channel.queue = []) :
    ∃ closing e, s.reconcile = .ok (closing, e) ∧ e.course = s.course ∧
      e.tracker.store = s.tracker.store ∧ e.Clean closing := by
  have hagrees := h.scene.agrees_of_mirrored _ _ _ h.record hm
  rcases s.tracker.reconcile_idle s.scene.source hagrees with ⟨o, ho, hvalue, htrace, hsame⟩
  have hreplica : (s.absorb o).replica = s.replica := by
    rw [Session.absorb, htrace]
    rfl
  have hstore : (s.absorb o).tracker.store = s.tracker.store := hsame
  refine ⟨o.value, s.absorb o, ?_, rfl, hstore, ?_⟩
  · rw [Session.reconcile, ho]
    rfl
  · refine ⟨hvalue ▸ rfl, hstore ▸ hagrees, ?_, ?_, ?_, ?_, h.counted, hqueue⟩
    · rw [hstore]
      exact (Store.check_eq_none_iff_sound _).mpr h.record
    · rw [hreplica, hstore]
      exact h.shown
    · rw [hreplica]
      exact h.noted
    · rw [hstore]
      exact h.scene.size_eq_live _ _ h.counted _ h.record hm

end Attuned

/-- A summary of a clean end is clean. -/
theorem Reports.isClean (s : Session) (closing : Report) (summary : Summary)
    (h : s.Reports closing summary) (hs : s.Clean closing) : summary.isClean = true := by
  rw [Summary.isClean, h.converged, h.replica, h.check, h.mismatches, h.tracked, h.live, hs.noop,
    hs.shown, hs.check, hs.noted, hs.tracks, beq_self_eq_true]
  rfl

/-- After the first pass over a scene everything is in order. -/
theorem attuned_reconcile (scene : Scene) (n : Nat) (hs : scene.Sound n) (hc : scene.Counted)
    (hfeed : scene.feed = []) (t : Tracker) (ht : t.store = Store.empty) :
    ∃ done, reconcile { scene := scene, tracker := t } = .ok done ∧
      done.2.course = ⟨scene, 0, []⟩ ∧ done.2.Attuned n := by
  have hrecord : t.store.Sound := ht ▸ Store.sound_ofRoot none
  have hshown : ({} : Replica).matchesGrid t.store = true := by
    rw [ht]
    decide +kernel
  rcases hs.serves_reconcile scene n t hrecord with ⟨o, ho, hserves, hm⟩
  rcases hserves.tells {} hshown with ⟨hfollows, hgrid⟩
  refine ⟨(o.value, Session.absorb { scene := scene, tracker := t } o), ?_, rfl, hs, hc, hfeed,
    hserves.record, hserves.trails, hfollows.mismatches_eq _ _, hgrid, rfl, Or.inl ⟨rfl, hm⟩⟩
  unfold reconcile
  simp only [ho, bind, Except.bind, pure, Except.pure]

/-- At the start the regular scene was passed over. -/
theorem attuned_start (r : Rehearsal)
    (hn : (Scene.populate {} r.breadth r.depth).arrivals < 2 ^ 32) :
    ∃ s, start r = .ok s ∧
      s.course = ⟨(Scene.populate {} r.breadth r.depth).takeFeed.2, 0, []⟩ ∧
      s.Attuned (Scene.populate {} r.breadth r.depth).arrivals := by
  have hleads := Scene.leads_populate {} r.breadth r.depth
  rcases hleads.spec {} _ 0 Scene.sound_empty (by omega) with ⟨hsound, hcounted, _⟩
  rw [Nat.zero_add] at hsound
  rcases attuned_reconcile _ _ (hsound.takeFeed _ _) (hcounted Scene.counted_empty) rfl
    (Tracker.ofSettings r.settings KindTable.standard).observe rfl with
    ⟨done, hdone, hcourse, h⟩
  refine ⟨done.2, ?_, hcourse, h⟩
  unfold start
  simp only [hdone, bind, Except.bind, pure, Except.pure]

end Session

namespace Rehearsal

/-- How many nodes a rehearsal creates, at the start and with its frames. -/
def creations (r : Rehearsal) (frames : List (List SceneOp)) : Nat :=
  let scene := Scene.populate {} r.breadth r.depth
  scene.arrivals + Storm.creations r.storm.maxNodes frames scene.takeFeed.2

/-- The frames with the moves in between take their course. -/
theorem attuned_playFrom (r : Rehearsal) (schedule : Schedule) (frames : List (List SceneOp))
    (s : Session) (n i : Nat) (h : s.Attuned n)
    (hn : n + Storm.creations r.storm.maxNodes frames s.scene < 2 ^ 32) :
    ∃ s' n', r.playFrom schedule i frames s = .ok s' ∧
      Course.playFrom r schedule i frames s.course = .ok s'.course ∧ s'.Attuned n' := by
  induction frames generalizing s n i with
  | nil => exact ⟨s, n, rfl, rfl, h⟩
  | cons frame rest ih =>
      rw [Storm.creations] at hn
      rcases h.produce s n r frame (by omega) with ⟨hcourse, hproduced⟩
      rcases hproduced.performAll _ _ (schedule i) with ⟨s₁, hs₁, hcourse₁, h₁⟩
      have hscene : s₁.scene = (Storm.applyFrame r.storm.maxNodes frame s.scene).2.takeFeed.2 :=
        (congrArg Course.scene hcourse₁).trans (Course.scene_moves _ _)
      have hn₁ : n + (Storm.applyFrame r.storm.maxNodes frame s.scene).2.arrivals +
          Storm.creations r.storm.maxNodes rest s₁.scene < 2 ^ 32 := by
        rw [hscene, Nat.add_assoc]
        exact hn
      rcases ih s₁ _ (i + 1) h₁ hn₁ with ⟨s', n', hs', hcourse', h'⟩
      refine ⟨s', n', ?_, ?_, h'⟩
      · rw [playFrom, hs₁]
        exact hs'
      · rw [Course.playFrom, hcourse]
        change Course.playFrom r schedule (i + 1) rest _ = _
        rw [← hcourse₁, hcourse']

/-- Every rehearsal that creates less than `2 ^ 32` nodes ends, and it ends
    clean: whatever the frames, the shape at the start, the mode and the
    settings, and whenever the model side moves. Without a fault the frames and
    the moves take their course to the session `s`, and in `m` all that was queued
    is done. The closing pass finds nothing to do and leaves `e`, in which record,
    copy and scene agree, and that is what the summary tells. -/
theorem play_clean (r : Rehearsal) (frames : List (List SceneOp)) (schedule : Schedule) (now : Nat)
    (hn : r.creations frames < 2 ^ 32) :
    ∃ s m closing e summary,
      Session.start r >>= r.playFrom schedule 0 frames = .ok s ∧
      r.course schedule frames = .ok s.course ∧
      s.settle now = .ok m ∧ m.reconcile = .ok (closing, e) ∧
      e.course = s.course.move .drain ∧ e.tracker.store = m.tracker.store ∧ e.Clean closing ∧
      r.play frames schedule now = .ok summary ∧ e.Reports closing summary ∧
      summary.isClean = true := by
  rw [creations] at hn
  rcases Session.attuned_start r (by omega) with ⟨s₀, hs₀, hcourse₀, h₀⟩
  have hscene₀ : s₀.scene = (Scene.populate {} r.breadth r.depth).takeFeed.2 :=
    congrArg Course.scene hcourse₀
  rcases r.attuned_playFrom schedule frames s₀ _ 0 h₀ (hscene₀.symm ▸ hn) with
    ⟨s, n, hs, hcourse, h⟩
  rcases h.settle s n now with ⟨m, hm, hcourseₘ, hₘ, hmirrored⟩
  rcases hₘ.closing m n hmirrored (congrArg Course.queue hcourseₘ) with
    ⟨closing, e, he, hcourseₑ, hstore, hclean⟩
  have hreports : e.Reports closing (e.summary r closing) :=
    ⟨rfl, rfl, rfl, rfl, rfl, rfl, rfl⟩
  refine ⟨s, m, closing, e, e.summary r closing, ?_, ?_, hm, he, hcourseₑ.trans hcourseₘ, hstore,
    hclean, ?_, hreports, hreports.isClean e closing _ hclean⟩
  · rw [hs₀]
    exact hs
  · have hpopulate := Scene.Guarded.populate_eq {} r.breadth r.depth 0 Scene.sound_empty
      Scene.counted_empty (by omega)
    rw [course, hpopulate, ← hcourse, hcourse₀]
    rfl
  · rw [play, hs₀]
    change (r.playFrom schedule 0 frames s₀ >>= fun s => s.close r now) = _
    rw [hs]
    change s.close r now = _
    rw [Session.close, hm]
    change (m.reconcile >>= fun done => pure (done.2.summary r done.1)) = _
    rw [he]
    rfl

/-- Three frames in which nodes are created, moved and destroyed, and the whole
    scene is replaced in the second one. -/
def threeFrames : List (List SceneOp) :=
  [[.create 1 Tag.item, .reparent 2 1, .destroy 3],
    [.create 0 Tag.geometry, .replaceRoot, .rename 1],
    [.create 1 Tag.item, .reparent 2 0, .raise 1]]

/-- The model side does one task after the first frame, looks for what is due
    after the second one, and leaves all that is queued to the end. -/
def lateMoves : Schedule
  | 0 => [(.handle, 0), (.tick, 1)]
  | 1 => [(.tick, 2)]
  | _ => []

-- Eight operations changed the scene, eleven tasks are left to the end, and three
-- nodes are live then.
theorem play_clean_of_lateMoves :
    let r : Rehearsal := { mode := .incremental, breadth := 2, depth := 2 }
    r.creations threeFrames < 2 ^ 32 ∧
      (r.course lateMoves threeFrames).toOption.map (·.queue.length) = some 11 ∧
      ∃ summary, r.play threeFrames lateMoves 3 = .ok summary ∧ summary.isClean = true ∧
        summary.opsApplied = 8 ∧ summary.tracked = 3 := by
  intro r
  have hn : r.creations threeFrames < 2 ^ 32 := by decide +kernel
  have hchanges : (r.course lateMoves threeFrames).toOption.map Course.changes = some 8 := by
    decide +kernel
  have hlive : (r.course lateMoves threeFrames).toOption.map (·.scene.live) = some 3 := by
    decide +kernel
  rcases play_clean r threeFrames lateMoves 3 hn with
    ⟨s, m, closing, e, summary, _, hs, _, _, he, _, hclean, hplay, hreports, hisClean⟩
  rw [hs] at hchanges hlive
  have hscene : e.scene = s.scene := congrArg Course.scene he
  refine ⟨hn, by decide +kernel, summary, hplay, hisClean, ?_, ?_⟩
  · rw [hreports.changes]
    exact (congrArg Course.changes he).trans (Option.some.inj hchanges)
  · rw [hreports.tracked, hclean.tracks, hscene]
    exact Option.some.inj hlive

end Rehearsal

end TreeWatch
