import TreeWatch.Proofs.Convergence
import TreeWatch.Proofs.Mourners

/-!
# Announced Deaths

A consumer that holds handles waits for the announcement that a node is gone
for good. Scene, tracker and copy run on as in `World`, from a record that was
just passed over the scene. The death of a node is announced once if it was
tracked when it died, however late its tasks are handled and whatever else
happens in between. The death of any other node is not announced, and no live
node is announced.

A node that was tracked may die when it is not. A subtree that was moved is
removed from the record and put back as the scene has it by then, so a node
that moved out of it a moment later is not tracked until its own task is
handled. If it dies before that, both its tasks find a node that is unknown,
and nobody hears of its death.

## Main definitions

* `World.Opened`: The worlds at the beginning.
* `World.announced`: How often the copy heard that a node is gone.
* `World.meets`, `World.loses`: A node is tracked at some moment of a run, and it
  dies at one while it is tracked.
* `World.Turn`: What one action does.
* `World.Ledger`: How the announcements for one node stand.

## Theorems

* `World.InStep.turn`: Every action changes the scene, or the record along with
  the announcements.
* `World.Ledger.run`: The ledger is kept by every run.
* `World.announced_iff_loses`: The death of a node is announced if and only if
  it was tracked when it died.
* `World.not_announced_late`: A node was tracked and died unheard.
-/

namespace TreeWatch

namespace Scene

variable (s : Scene) (n : Nat) (hs : s.Sound n)

include hs

/-- All that a scene shows is alive. -/
theorem Sound.lively : PointEdit.Lively s.source := by
  refine ⟨fun r hr => (hs.live r).mpr (Or.inl hr), fun h x hx => ?_⟩
  cases hh : s.contains h with
  | true =>
      have hu := ((hs.subtree_links s n h hh).1 x).mp hx
      exact (hs.live x).mpr (Forest.held_of_above _ _ x h hu.2 ((hs.live h).mp hh))
  | false =>
      have hempty : s.source.subtree h = Snapshot.empty := if_neg fun hlive =>
        Bool.false_ne_true (hh.symm.trans hlive)
      rw [hempty, Snapshot.proper_empty.mem_descendants] at hx
      rcases hx with ⟨c, hc, _⟩
      exact absurd hc (by simp only [Snapshot.empty, Snapshot.parent,
        Std.ExtTreeMap.getElem?_empty, reduceCtorEq, not_false_eq_true])

end Scene

namespace Replica

-- Going over rows notes mismatches and nothing else.
theorem events_foldl {α : Type} (f : Replica → α → Replica) (hf : ∀ r a, (f r a).events = r.events)
    (xs : List α) (r : Replica) : (xs.foldl f r).events = r.events := by
  induction xs generalizing r with
  | nil => rfl
  | cons x xs ih => exact (ih (f r x)).trans (hf r x)

theorem events_checkRows (r : Replica) (grid : Store) (parent : Option Index) (first last : Nat) :
    (r.checkRows grid parent first last).events = r.events := by
  refine events_foldl _ (fun acc row => ?_) _ r
  dsimp only
  split <;> rfl

theorem events_removeRows (r : Replica) (parent : Option Index) (first last : Nat) :
    (r.removeRows parent first last).events = r.events := by
  unfold removeRows
  cases parent with
  | none => rfl
  | some i =>
      dsimp only
      cases r.childLists[i.node]? with
      | none => rfl
      | some list =>
          dsimp only
          split <;> rfl

theorem events_insertRows (r : Replica) (grid : Store) (parent : Option Index)
    (first last : Nat) : (r.insertRows grid parent first last).events = r.events := by
  unfold insertRows
  dsimp only
  generalize hm : List.foldl _ r _ = m
  have hevents : m.events = r.events := by
    rw [← hm]
    refine events_foldl _ (fun r e => ?_) _ r
    split <;> rfl
  cases parent with
  | none => exact hevents
  | some i =>
      dsimp only
      cases m.childLists[i.node]? with
      | none => exact hevents
      | some list =>
          dsimp only
          split <;> exact hevents

/-- Whatever an announcement does to a copy, it is kept. -/
theorem events_apply (r : Replica) (e : Event) (grid : Store) :
    (r.apply e grid).events = r.events.push e := by
  unfold apply
  cases e with
  | rowsAboutToBeRemoved parent first last => exact events_checkRows _ _ _ _ _
  | rowsRemoved parent first last => exact events_removeRows _ _ _ _
  | rowsAboutToBeInserted parent first last =>
      dsimp only
      split <;> rfl
  | rowsInserted parent first last => exact events_insertRows _ _ _ _ _
  | modelAboutToBeReset => rfl
  | modelReset => rfl
  | dataChanged index lastColumn kinds => rfl
  | nodeDeleted node => rfl

/-- A copy keeps all it heard, in order. -/
theorem events_observe (r : Replica) (trace : List Notice) :
    (r.observe trace).events.toList = r.events.toList ++ trace.map Notice.event := by
  induction trace generalizing r with
  | nil => exact (List.append_nil _).symm
  | cons n trace ih =>
      rw [observe_cons, ih, events_apply, Array.toList_push, List.map_cons, List.append_assoc]
      rfl

end Replica

namespace World

/-- The worlds at the beginning. The feed is empty and a pass was just made. The
    copy matches and has heard of no deletion. -/
inductive Opened : World → Prop where
  | reconciled (s : Scene) (n : Nat) (hs : s.Grown n) (hfeed : s.feed = []) (t : Tracker)
    (ht : t.store.check = none) (o : Outcome Report) (ho : t.reconcile s.source = .ok o)
    (q : Replica) (hq : q.matchesGrid o.tracker.store = true) (hnoted : q.mismatches = [])
    (hquiet : ∀ h, .nodeDeleted h ∉ q.events.toList) : Opened ⟨s, [], o.tracker, q, n⟩

/-- How often the copy heard that a node is gone. -/
def announced (w : World) (h : Handle) : Nat :=
  w.replica.events.toList.countP fun e => e = .nodeDeleted h

/-- The node is tracked at some moment of the run. -/
def meets (h : Handle) : World → List Action → Bool
  | w, [] => w.tracker.store.contains h
  | w, a :: rest =>
    w.tracker.store.contains h ||
      match w.step a with
      | .ok w' => meets h w' rest
      | .error _ => false

/-- From one moment to the next the node dies while it is tracked. -/
def seesDie (w w' : World) (h : Handle) : Bool :=
  w.tracker.store.contains h && w.scene.contains h && !w'.scene.contains h

/-- The node dies at some moment of the run while it is tracked. -/
def loses (h : Handle) : World → List Action → Bool
  | _, [] => false
  | w, a :: rest =>
    match w.step a with
    | .ok w' => w.seesDie w' h || loses h w' rest
    | .error _ => false

/-- What one action does. It changes the scene, and nobody who died comes back,
    or it changes the record, and the copy hears of those who went away. -/
inductive Turn (w w' : World) : Prop where
  | changed (htracker : w'.tracker = w.tracker) (hreplica : w'.replica = w.replica)
    (hissued : ∀ x, w.scene.Issued x → w'.scene.Issued x)
    (hdead : ∀ x, w.scene.contains x = false → w.scene.Issued x → w'.scene.contains x = false)
  | heard (trace : List Notice) (hscene : w'.scene = w.scene)
    (hreplica : w'.replica = w.replica.observe trace)
    (hmourns : Mourns w.scene.contains w.tracker.store trace w'.tracker.store)

/-- How the announcements for `h` stand, where `lost` says whether it ever died
    while it was tracked. If so it is still tracked or it was announced. -/
structure Ledger (w : World) (h : Handle) (lost : Bool) : Prop where
  dead : lost = true → w.scene.Issued h ∧ w.scene.contains h = false
  known : w.tracker.store.contains h = true → w.scene.contains h = false → lost = true
  count : w.announced h = if lost = true ∧ w.tracker.store.contains h = false then 1 else 0

namespace InStep

variable (w : World) (hin : w.InStep)

include hin

/-- Every action changes the scene, or the record along with the
    announcements. -/
theorem turn (a : Action) (w' : World) (hstep : w.step a = .ok w') (hn : w'.created < 2 ^ 32) :
    w.Turn w' := by
  have hlively := hin.scene.lively w.scene w.created
  have hsnapshot := hin.scene.contains_snapshot w.scene w.created
  have hidle : w' = w → w.Turn w' := by
    rintro rfl
    exact .changed rfl rfl (fun _ hx => hx) fun _ hx _ => hx
  cases a with
  | call c =>
      rw [hin.step_call w c, Except.ok.injEq] at hstep
      cases hok : c.run w.scene with
      | error e =>
          rw [hok] at hstep
          exact hidle hstep.symm
      | ok s =>
          rw [hok] at hstep
          subst hstep
          rcases hin.scene.call_spec w.scene w.created c s hn hok with ⟨_, hissued, posts, _, hc⟩
          exact .changed rfl rfl hissued fun x => hc.dead_stays _ _ posts x
  | deliver =>
      simp only [World.step, Except.ok.injEq] at hstep
      subst hstep
      exact .changed rfl rfl (fun _ hx => hx) fun _ hx _ => hx
  | next now =>
      cases hinbox : w.inbox with
      | nil =>
          simp only [World.step, hinbox, Except.ok.injEq] at hstep
          exact hidle hstep.symm
      | cons task rest =>
          cases ho : w.tracker.handle w.scene.source task now with
          | error f => simp only [World.step, hinbox, ho, bind, Except.bind, reduceCtorEq] at hstep
          | ok o =>
              simp only [World.step, hinbox, ho, bind, Except.bind, pure, Except.pure,
                Except.ok.injEq] at hstep
              subst hstep
              exact .heard o.trace rfl rfl
                (w.tracker.mourns_handle hin.record w.scene.source hsnapshot hlively task now o ho)
  | tick now =>
      cases ho : w.tracker.tick w.scene.source now with
      | error f => simp only [World.step, ho, bind, Except.bind, reduceCtorEq] at hstep
      | ok o =>
          simp only [World.step, ho, bind, Except.bind, pure, Except.pure, Except.ok.injEq] at hstep
          subst hstep
          exact .heard o.trace rfl rfl
            (w.tracker.mourns_tick hin.record w.scene.source hsnapshot now o ho)
  | reconcile =>
      cases ho : w.tracker.reconcile w.scene.source with
      | error f => simp only [World.step, ho, bind, Except.bind, reduceCtorEq] at hstep
      | ok o =>
          simp only [World.step, ho, bind, Except.bind, pure, Except.pure, Except.ok.injEq] at hstep
          subst hstep
          have hmourns := w.tracker.mourns_reconcile hin.record w.scene.source o ho
          rw [funext hsnapshot] at hmourns
          exact .heard o.trace rfl rfl hmourns

/-- When all tasks were done and no pass is due, the live nodes are tracked. -/
theorem contains_of_settled (hinbox : w.inbox = []) (hfeed : w.scene.feed = [])
    (hpending : w.tracker.resyncPending = false) (h : Handle) :
    w.tracker.store.contains h = w.scene.contains h := by
  have hqueue : w.queue = [] := by
    rw [queue, hinbox, hfeed, List.append_nil]
  have htrails := hin.trails
  have haccounts := hin.accounts hpending
  rw [hqueue] at htrails haccounts
  have hm := haccounts.settled _ _ hin.scene _ htrails hin.record
  rw [Bool.eq_iff_iff, Store.contains_iff, hin.scene.live, hm.root]
  exact or_congr_right (exists_congr fun p => by rw [hm.up])

end InStep

theorem announced_observe (w w' : World) (trace : List Notice)
    (hreplica : w'.replica = w.replica.observe trace) (h : Handle) :
    w'.announced h = w.announced h + deletions h trace := by
  rw [announced, hreplica, Replica.events_observe, List.countP_append, List.countP_map]
  rfl

namespace Ledger

variable (w w' : World) (h : Handle) (lost : Bool) (hl : w.Ledger h lost)

include hl

/-- The scene changed. -/
theorem changed (htracker : w'.tracker = w.tracker) (hreplica : w'.replica = w.replica)
    (hissued : ∀ x, w.scene.Issued x → w'.scene.Issued x)
    (hdead : ∀ x, w.scene.contains x = false → w.scene.Issued x → w'.scene.contains x = false) :
    w'.Ledger h (lost || w.seesDie w' h) := by
  refine ⟨fun hlost => ?_, fun hh hgone => ?_, ?_⟩
  · rcases (Bool.or_eq_true _ _).mp hlost with hlost | hseen
    · rcases hl.dead hlost with ⟨hi, hgone⟩
      exact ⟨hissued h hi, hdead h hgone hi⟩
    · simp only [seesDie, Bool.and_eq_true, Bool.not_eq_true'] at hseen
      exact ⟨hissued h (w.scene.issued_of_contains h hseen.1.2), hseen.2⟩
  · rw [htracker] at hh
    cases hlive : w.scene.contains h with
    | true => simp only [seesDie, hh, hlive, hgone, Bool.not_false, Bool.and_self, Bool.or_true]
    | false => rw [hl.known hh hlive, Bool.true_or]
  · rw [announced, hreplica, htracker]
    refine hl.count.trans ?_
    cases hh : w.tracker.store.contains h with
    | true => simp only [Bool.true_eq_false, and_false, if_false]
    | false => simp only [seesDie, hh, Bool.false_and, Bool.or_false]

/-- The record changed beside the scene. Nobody dies, so the flag stays. -/
theorem heard (trace : List Notice) (hscene : w'.scene = w.scene)
    (hreplica : w'.replica = w.replica.observe trace)
    (hmourns : Mourns w.scene.contains w.tracker.store trace w'.tracker.store) :
    w'.Ledger h lost := by
  refine ⟨hscene ▸ hl.dead, fun hh hgone => ?_, ?_⟩
  · rw [hscene] at hgone
    refine hl.known ((hmourns.new h hh).resolve_right ?_) hgone
    rw [hgone]
    exact Bool.false_ne_true
  · rw [announced_observe w w' trace hreplica, hl.count, hmourns.once]
    cases hlost : lost with
    | false =>
        rw [if_neg (fun hc => Bool.false_ne_true hc.1), if_neg (fun hc => ?_),
          if_neg (fun hc => Bool.false_ne_true hc.1)]
        exact Bool.false_ne_true (hlost.symm.trans (hl.known hc.2.1 hc.1))
    | true =>
        have hgone := (hl.dead hlost).2
        cases hh : w.tracker.store.contains h with
        | true =>
            simp only [hgone, Bool.true_eq_false, and_false, true_and, if_false, Nat.zero_add]
        | false =>
            have hh' := hmourns.stays_away _ _ _ _ h hgone hh
            simp only [hh', and_self, if_true, Bool.false_eq_true, false_and, and_false, if_false]

/-- One action. -/
theorem turn (hturn : w.Turn w') : w'.Ledger h (lost || w.seesDie w' h) := by
  cases hturn with
  | changed htracker hreplica hissued hdead =>
      exact hl.changed w w' h lost htracker hreplica hissued hdead
  | heard trace hscene hreplica hmourns =>
      have hseen : w.seesDie w' h = false := by
        rw [seesDie, hscene, Bool.and_assoc, Bool.and_not_self, Bool.and_false]
      rw [hseen, Bool.or_false]
      exact hl.heard w w' h lost trace hscene hreplica hmourns

/-- A whole run. -/
theorem run (actions : List Action) (hin : w.InStep) (hrun : w.run actions = .ok w')
    (hn : w'.created < 2 ^ 32) : w'.InStep ∧ w'.Ledger h (lost || w.loses h actions) := by
  induction actions generalizing w lost with
  | nil =>
      simp only [World.run, List.foldlM_nil, pure, Except.pure, Except.ok.injEq] at hrun
      rw [loses, Bool.or_false]
      exact hrun ▸ ⟨hin, hl⟩
  | cons a actions ih =>
      rw [World.run, List.foldlM_cons] at hrun
      cases hstep : w.step a with
      | error e => simp only [hstep, bind, Except.bind, reduceCtorEq] at hrun
      | ok m =>
          simp only [hstep, bind, Except.bind] at hrun
          have hnm : m.created < 2 ^ 32 :=
            Nat.lt_of_le_of_lt (created_le_of_run m w' actions hrun) hn
          rcases hin.step w a with ⟨m', hm', hkept⟩
          rw [hstep, Except.ok.injEq] at hm'
          subst hm'
          have hturn := hl.turn w m h lost (hin.turn w a m hstep hnm)
          rw [loses, hstep, ← Bool.or_assoc]
          exact ih m _ hturn (hkept hnm) hrun

end Ledger

/-- At the beginning the live nodes are tracked and nobody was announced. -/
theorem Opened.ledger (w : World) (hw : w.Opened) (h : Handle) : w.InStep ∧ w.Ledger h false := by
  cases hw with
  | reconciled s n hs hfeed t ht o ho q hq hnoted hquiet =>
      have hin := (Reached.reconciled s n hs hfeed t ht o ho q hq hnoted).inStep
      have hpending : o.tracker.resyncPending = false := by
        rcases t.reconcile_spec (t.store.check_eq_none_iff_sound.mp ht) s.source with
          ⟨o', ho', _, _, hpending, _⟩
        rw [ho, Except.ok.injEq] at ho'
        exact ho' ▸ hpending
      have hsame := hin.contains_of_settled _ rfl hfeed hpending h
      refine ⟨hin, fun hlost => absurd hlost Bool.false_ne_true, fun hh hgone => ?_, ?_⟩
      · exact absurd (hgone.symm.trans (hsame.symm.trans hh)) Bool.false_ne_true
      · rw [if_neg (fun hc => Bool.false_ne_true hc.1), announced, List.countP_eq_zero]
        intro e he
        rw [decide_eq_true_eq]
        rintro rfl
        exact hquiet h he

-- Who dies while it is tracked was tracked.
theorem meets_of_loses (w : World) (h : Handle) (actions : List Action)
    (hl : w.loses h actions = true) : w.meets h actions = true := by
  induction actions generalizing w with
  | nil => exact absurd hl Bool.false_ne_true
  | cons a actions ih =>
      rw [loses] at hl
      rw [meets]
      cases hstep : w.step a with
      | error e =>
          rw [hstep] at hl
          exact absurd hl Bool.false_ne_true
      | ok w' =>
          rw [hstep] at hl
          rcases (Bool.or_eq_true _ _).mp hl with hseen | hl
          · simp only [seesDie, Bool.and_eq_true] at hseen
            rw [hseen.1.1, Bool.true_or]
          · dsimp only
            rw [ih w' hl, Bool.or_true]

/-- In every run from a record that was just passed over the scene, a live node
    is never announced, and no node more than once. When all tasks were done and
    no pass is due, the nodes that were announced are exactly those that died
    while they were tracked. -/
theorem announced_iff_loses (w₀ w : World) (actions : List Action) (hstart : w₀.Opened)
    (hrun : w₀.run actions = .ok w) (hn : w.created < 2 ^ 32) (h : Handle) :
    (w.scene.contains h = true → w.announced h = 0) ∧ w.announced h ≤ 1 ∧
      (w₀.loses h actions = true → w₀.meets h actions = true ∧ w.scene.contains h = false) ∧
      (w.inbox = [] → w.scene.feed = [] → w.tracker.resyncPending = false →
        (w.announced h = 1 ↔ w₀.loses h actions = true)) := by
  rcases hstart.ledger w₀ h with ⟨hin₀, hopen⟩
  rcases hopen.run w₀ w h false actions hin₀ hrun hn with ⟨hin, hledger⟩
  rw [Bool.false_or] at hledger
  refine ⟨fun hlive => ?_, ?_, fun hl => ?_, fun hinbox hfeed hpending => ?_⟩
  · rw [hledger.count, if_neg]
    exact fun hc => Bool.false_ne_true ((hledger.dead hc.1).2.symm.trans hlive)
  · rw [hledger.count]
    split
    · exact Nat.le_refl 1
    · exact Nat.zero_le 1
  · exact ⟨meets_of_loses w₀ h actions hl, (hledger.dead hl).2⟩
  · rw [hledger.count, hin.contains_of_settled w hinbox hfeed hpending h]
    constructor
    · intro hone
      by_contra hl
      rw [if_neg fun hc => hl hc.1] at hone
      exact absurd hone Nat.zero_ne_one
    · exact fun hl => if_pos ⟨hl, (hledger.dead hl).2⟩

/-- A tracker makes its first pass over a scene whose feed is empty, and the
    copy starts from what the tracker shows. -/
def opening (s : Scene) (n : Nat) (t : Tracker) : Except Fault World := do
  let o ← t.reconcile s.source
  return ⟨s, [], o.tracker, ({} : Replica).rebuild o.tracker.store, n⟩

theorem opened_of_opening (s : Scene) (n : Nat) (hs : s.Grown n) (hfeed : s.feed = [])
    (t : Tracker) (ht : t.store.check = none) (w : World) (hw : opening s n t = .ok w) :
    w.Opened := by
  unfold opening at hw
  cases ho : t.reconcile s.source with
  | error f => simp only [ho, bind, Except.bind, reduceCtorEq] at hw
  | ok o =>
      simp only [ho, bind, Except.bind, pure, Except.pure, Except.ok.injEq] at hw
      subst hw
      refine .reconciled s n hs hfeed t ht o ho _ ?_ rfl fun _ => List.not_mem_nil
      exact (Replica.matchesGrid_iff _ _).mpr ⟨Replica.index_top _, rfl⟩

/-- Let a fresh tracker watch an empty scene, run the actions, and check the
    worlds before and after. -/
def checkRun (actions : List Action) (p : World → World → Bool) : Bool :=
  match opening {} 0 (Tracker.ofSettings {} {}) with
  | .error _ => false
  | .ok w₀ =>
    match w₀.run actions with
    | .error _ => false
    | .ok w => p w₀ w

theorem exists_of_checkRun (actions : List Action) (p : World → World → Bool)
    (hcheck : checkRun actions p = true) :
    ∃ w₀ w, w₀.Opened ∧ w₀.run actions = .ok w ∧ p w₀ w = true := by
  unfold checkRun at hcheck
  cases hopen : opening {} 0 (Tracker.ofSettings {} {}) with
  | error f =>
      rw [hopen] at hcheck
      exact absurd hcheck Bool.false_ne_true
  | ok w₀ =>
      have hw₀ := opened_of_opening {} 0 .empty rfl _
        ((Store.check_eq_none_iff_sound _).mpr (Store.sound_ofRoot none)) w₀ hopen
      rw [hopen] at hcheck
      dsimp only at hcheck
      cases hrun : w₀.run actions with
      | error f =>
          rw [hrun] at hcheck
          exact absurd hcheck Bool.false_ne_true
      | ok w =>
          rw [hrun] at hcheck
          exact ⟨w₀, w, hw₀, hrun, hcheck⟩

/-- Two nodes are created and watched, and the second one is destroyed. -/
def plainDeath : List Action :=
  [.call (.createRoot "root" Tag.root), .call (.create (Handle.ofParts 0 1) "leaf" Tag.item),
    .deliver, .next 0, .next 0, .call (.destroy (Handle.ofParts 1 1)), .deliver, .next 0]

theorem announced_of_plainDeath :
    ∃ w₀ w : World, w₀.Opened ∧ w₀.run plainDeath = .ok w ∧
      w.scene.contains (Handle.ofParts 1 1) = false ∧ w.announced (Handle.ofParts 1 1) = 1 := by
  rcases exists_of_checkRun plainDeath
    (fun w₀ w => decide (w.created < 2 ^ 32 ∧ w.inbox = [] ∧ w.scene.feed = [] ∧
      w.tracker.resyncPending = false ∧ w₀.loses (Handle.ofParts 1 1) plainDeath = true))
    (by decide +kernel) with ⟨w₀, w, hw₀, hrun, hdone⟩
  rcases of_decide_eq_true hdone with ⟨hn, hinbox, hfeed, hpending, hl⟩
  rcases announced_iff_loses w₀ w plainDeath hw₀ hrun hn (Handle.ofParts 1 1) with
    ⟨_, _, hlost, hsettled⟩
  exact ⟨w₀, w, hw₀, hrun, (hlost hl).2, (hsettled hinbox hfeed hpending).mpr hl⟩

/-- Below the root are a first and a second node and below the first a third.
    All are tracked. Then the first moves below the second, the third to the
    root, and the task of the first is done. The third dies, and the rest of the
    tasks is done. -/
def lateDeath : List Action :=
  [.call (.createRoot "root" Tag.root),
    .call (.create (Handle.ofParts 0 1) "first" Tag.item),
    .call (.create (Handle.ofParts 0 1) "second" Tag.item),
    .call (.create (Handle.ofParts 1 1) "third" Tag.item), .deliver, .reconcile,
    .next 0, .next 0, .next 0, .next 0,
    .call (.reparent (Handle.ofParts 1 1) (Handle.ofParts 2 1)),
    .call (.reparent (Handle.ofParts 3 1) (Handle.ofParts 0 1)), .deliver, .next 0,
    .call (.destroy (Handle.ofParts 3 1)), .next 0, .deliver, .next 0]

-- The third was tracked and is dead, and the copy did not hear of it.
theorem not_announced_late :
    ¬ ∀ (w₀ w : World) (actions : List Action), w₀.Opened → w₀.run actions = .ok w →
      w.created < 2 ^ 32 → w.inbox = [] → w.scene.feed = [] → w.tracker.resyncPending = false →
      ∀ h, (w₀.meets h actions = true → w.scene.contains h = false → w.announced h = 1) ∧
        (w.scene.contains h = true → w.announced h = 0) := by
  intro hall
  rcases exists_of_checkRun lateDeath
    (fun w₀ w => decide (w.created < 2 ^ 32 ∧ w.inbox = [] ∧ w.scene.feed = [] ∧
      w.tracker.resyncPending = false ∧ w₀.meets (Handle.ofParts 3 1) lateDeath = true ∧
      w.scene.contains (Handle.ofParts 3 1) = false ∧ w.announced (Handle.ofParts 3 1) = 0))
    (by decide +kernel) with ⟨w₀, w, hw₀, hrun, hunheard⟩
  rcases of_decide_eq_true hunheard with ⟨hn, hinbox, hfeed, hpending, hmet, hgone, hnone⟩
  have hone := (hall w₀ w lateDeath hw₀ hrun hn hinbox hfeed hpending _).1 hmet hgone
  exact Nat.zero_ne_one (hnone.symm.trans hone)

end World

end TreeWatch
