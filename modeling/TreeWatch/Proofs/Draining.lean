import TreeWatch.Proofs.Lasting
import TreeWatch.Proofs.Orderly
import TreeWatch.Proofs.Redundant

/-!
# Passes That Are Put Off

A drain does the point edits and attribute changes of a queue in their order
and puts off the passes: all that were asked for become one at the end. If each
task is done in its turn instead, the edits behind a pass meet another record.
They may evict and fill differently, and ask for a pass when the others do not.

Over a scene that does not change both meet again. If no pass is asked for they
do the same. If one is, the drain ends with it. In its turn a pass leaves all of
the scene and no request, and every notification behind it is old news, unless
it says that a live node left.

For this both have to get to their end, and the record to begin with may be any
sound one. It may tangle with the scene, in that its root is live but not the
root of the scene. Then an insertion may leave copies behind, but it does not
fail: what the scene has below a node is not a child of the parent of that node,
so the row of the node is the one that was announced.

## Main definitions

* `Tracker.inTurn`: Every task is done in its turn, the passes included.
* `Tracker.Matches`: Two trackers have the same record and the same request.
* `Scene.Caught`: A record shows all of a scene and no pass is due.

## Theorems

* `Scene.Sound.coherent`: A scene is a source whose answers fit together.
* `Tracker.handle_lasts`: A notification preserves what lasts.
* `Tracker.handle_sound`, `Tracker.handle_trim`: What any task leaves.
* `Scene.Sound.handle_succeeds`: No task fails over a sound record.
* `Scene.Sound.caught_inTurn`: Behind a pass nothing changes any more.
* `Scene.Sound.drain_inTurn`: A drain leaves what the tasks leave in turn.
-/

namespace TreeWatch

open Forest (Under under_iff_up)

namespace Scene

section Sources

variable (s : Scene) (n : Nat) (hs : s.Sound n)

include hs

/-- The answers of a scene fit together. -/
theorem Sound.coherent : s.source.Coherent where
  live_iff h := by
    change s.contains h = true ↔ _
    rw [hs.live]
    constructor
    · intro hh
      rcases hs.tree.held_under_root h hh with ⟨r, hr, hu⟩
      refine ⟨r, hr, ?_⟩
      induction hu using Relation.ReflTransGen.head_induction_on with
      | refl => exact .refl
      | @head c p hc _ ih =>
          exact (ih (hs.tree.held_up c p hc)).tail ((hs.tree.mem_kids p c).mpr hc)
    · rintro ⟨r, hr, hpath⟩
      rcases Relation.ReflTransGen.cases_tail hpath with rfl | ⟨p, _, hp⟩
      · exact Or.inl hr
      · exact Or.inr ⟨p, (hs.tree.mem_kids p h).mp hp⟩
  parent_iff c p _ := by
    change s.parent c = some p ↔ s.contains p = true ∧ c ∈ s.children p
    rw [hs.tree.mem_kids, hs.live]
    exact ⟨fun hp => ⟨hs.tree.held_up c p hp, hp⟩, And.right⟩
  root_top := hs.tree.root_up

/-- What a scene has below a node is no child of the parent of that node. -/
theorem Sound.shuns_subtree (parent top : Handle) (htop : s.contains top = true)
    (hup : s.parent top = some parent) : (s.source.subtree top).Shuns parent [top] := by
  intro h hh x hx hxp
  rw [List.mem_singleton] at hh
  subst hh
  rcases hs.subtree_links s n h htop with ⟨hdesc, hlinks⟩
  rcases (hdesc x).mp hx with ⟨hne, hu⟩
  rw [hlinks x hne hu] at hxp
  rcases (under_iff_up x h).mp hu with rfl | ⟨p, hp, hph⟩
  · exact hne rfl
  · rw [hxp, Option.some.injEq] at hp
    exact hs.tree.acyclic h p (hp ▸ hup) hph

end Sources

section Successes

variable (s : Scene) (n : Nat) (hs : s.Sound n) (node : Handle) (tally : Tally) (step : Step)
  (hstep : step.store.Sound)

include hs hstep

/-- A node enters any sound record, even one that it tangles. -/
theorem Sound.entered_succeeds :
    ∃ done, PointEdit.entered s.source node tally step = .ok done := by
  by_cases hfree : PointEdit.Tangled s.source step.store node
  · rcases hfree with ⟨hnode, hlive, parent, top, r, hclimb, _, _, _, hstays⟩
    rcases PointEdit.climb_under step.store s.source node _ node parent top hnode hclimb with
      ⟨hparent, _, _, _⟩
    rcases hs.climb_under s n step.store node parent top hnode hlive hclimb with
      ⟨htop, hnew, hup, _⟩
    have hltop : s.source.isLive top = true := htop
    rcases step.evictTracked_spec s.source.isLive hstep [top] (s.source.subtree top) with
      ⟨flag, m, hevict, hedits, hcut, _, _⟩
    rw [List.flatMap_singleton] at hcut
    have hpm : m.store.contains parent = true := (hcut.contains_iff parent).mpr ⟨hparent, hstays⟩
    have hnm := (hcut.not_contains_iff top).mpr (Or.inl hnew)
    have hfill := s.source.proper_subtree top
    rcases m.insertRows_planted hedits.sound parent _ [top] _ _ hfill hpm (List.cons_ne_nil top [])
      List.takeWhile_append_dropWhile.symm
      (PointEdit.ascending_single m hedits.sound parent top hnm)
      (fun _ hh => List.mem_singleton.mp hh ▸ hnm) (hfill.apart_singleton _ top)
      (hs.shuns_subtree s n parent top htop hup) with ⟨s', hins, _⟩
    have hrow : m.insertRows parent (m.store.insertionRow parent top) [top]
        (s.source.subtree top) = .ok s' := hins
    unfold PointEdit.entered
    simp only [hnode, hlive, Bool.not_true, Bool.or_self, Bool.false_eq_true, if_false, hclimb,
      s.source.isEmpty_subtree, hltop, hevict, bind, Except.bind, hpm, if_true, hrow, pure,
      Except.pure]
    exact ⟨_, rfl⟩
  · rcases PointEdit.entered_spec s.source node tally step hstep hfree with ⟨_, _, _, hok, _⟩
    exact ⟨_, hok⟩

/-- A node moves in any sound record. -/
theorem Sound.reparented_succeeds :
    ∃ done, PointEdit.reparented s.source node tally step = .ok done := by
  unfold PointEdit.reparented
  by_cases hnode : (!step.store.contains node) = true
  · rw [if_pos hnode]
    exact hs.entered_succeeds s n node tally step hstep
  · rw [if_neg hnode]
    by_cases hdead : (!s.source.isLive node) = true
    · rw [if_pos hdead]
      rcases PointEdit.left_spec s.source node tally step hstep with ⟨_, _, hok, _⟩
      exact ⟨_, hok⟩
    · rw [if_neg hdead]
      by_cases hsame : s.source.parent node = step.store.parent node
      · rw [if_pos hsame]
        exact ⟨_, rfl⟩
      · rw [if_neg hsame]
        by_cases hroot : step.store.root = some node
        · rw [if_pos hroot]
          exact ⟨_, rfl⟩
        · rw [if_neg hroot]
          rw [Bool.not_eq_true', Bool.not_eq_false] at hnode
          rcases ((step.store.contains_iff node).mp hnode).resolve_left hroot with ⟨p, hp⟩
          rcases step.removeNode_spec s.source.isLive hstep node p hp with ⟨m, hrem, hedits, _⟩
          rcases hs.entered_succeeds s n node tally m hedits.sound with ⟨done, hdone⟩
          simp only [hrem, bind, Except.bind, hdone, pure, Except.pure]
          split <;> exact ⟨_, rfl⟩

end Successes

end Scene

namespace Tracker

/-- All of the tasks one by one, each at its own instant and with every pass in
    its place. -/
def inTurn (t : Tracker) (source : Source) (tasks : List (Task × Nat)) : Except Fault Tracker :=
  tasks.foldlM (fun t e => do return (← t.handle source e.1 e.2).tracker) t

theorem inTurn_cons (t : Tracker) (source : Source) (e : Task × Nat) (rest : List (Task × Nat))
    (o : Outcome Report) (ho : t.handle source e.1 e.2 = .ok o) :
    t.inTurn source (e :: rest) = o.tracker.inTurn source rest := by
  simp only [inTurn, List.foldlM_cons, ho, bind, Except.bind, pure, Except.pure]

-- Whichever way a pass is asked for, it is made.
theorem handle_pass (t : Tracker) (source : Source) (task : Task) (now : Nat)
    (hpass : task.schedulesPass = true) : t.handle source task now = t.reconcile source := by
  cases task with
  | cycleCompleted => rfl
  | resync => rfl
  | entered node => exact absurd hpass Bool.false_ne_true
  | left node => exact absurd hpass Bool.false_ne_true
  | reparented node => exact absurd hpass Bool.false_ne_true
  | attributes node kinds => exact absurd hpass Bool.false_ne_true

/-- Two trackers have the same record, have counted the same notifications, and
    a pass is due for both or for none. -/
structure Matches (t u : Tracker) : Prop where
  store : t.store = u.store
  tally : t.tally = u.tally
  pending : t.resyncPending = u.resyncPending

section Handling

variable (t u : Tracker) (source : Source)

/-- What a notification does is decided by what the trackers have in common. -/
theorem Matches.notify (h : t.Matches u) (node : Handle)
    (edit : Tally → Step → Except Fault (Tally × Step)) (o : Outcome Report)
    (ho : t.notify node edit = .ok o) :
    ∃ o', u.notify node edit = .ok o' ∧ o.tracker.Matches o'.tracker := by
  have hdone : ∀ (v : Tracker) (p : Outcome Report) (done : Tally × Step),
      v.notify node edit = .ok p → edit v.tally { store := v.store } = .ok done →
      p.tracker.store = done.2.store ∧ p.tracker.tally = done.1 ∧
        p.tracker.resyncPending = (v.resyncPending || done.2.report.resyncRequested) := by
    intro v p done hp hedit
    rcases v.notify_spec node edit done.1 done.2 hedit with ⟨p', hp', hstore, _, hpending⟩
    rw [hp, Except.ok.injEq] at hp'
    subst hp'
    rcases v.notify_cases node edit p hp with ⟨tally, s, _, _, hedit', rfl⟩
    rw [hedit, Except.ok.injEq] at hedit'
    exact ⟨hstore, (congrArg Prod.fst hedit').symm, hpending⟩
  rcases t.edit_of_notify node edit o ho with ⟨tally, s, hedit, _, _⟩
  have hedit' := hedit
  rw [h.store, h.tally] at hedit'
  rcases u.notify_spec node edit tally s hedit' with ⟨o', ho', _⟩
  rcases hdone t o _ ho hedit with ⟨hstore, htally, hpending⟩
  rcases hdone u o' _ ho' hedit' with ⟨hstore', htally', hpending'⟩
  exact ⟨o', ho', hstore.trans hstore'.symm, htally.trans htally'.symm,
    by rw [hpending, hpending', h.pending]⟩

/-- The same for any task but a pass, whenever it is done. -/
theorem Matches.handle (h : t.Matches u) (task : Task) (now now' : Nat)
    (hedit : task.schedulesPass = false) (o : Outcome Report)
    (ho : t.handle source task now = .ok o) :
    ∃ o', u.handle source task now' = .ok o' ∧ o.tracker.Matches o'.tracker := by
  cases task with
  | cycleCompleted => exact absurd hedit.symm Bool.false_ne_true
  | resync => exact absurd hedit.symm Bool.false_ne_true
  | entered node => exact h.notify t u node _ o ho
  | left node => exact h.notify t u node _ o ho
  | reparented node => exact h.notify t u node _ o ho
  | attributes node kinds =>
      have hkept : ∀ (v : Tracker) (now : Nat), (v.attributesChanged node kinds now).Matches v := by
        intro v now
        unfold attributesChanged
        split <;> exact ⟨rfl, rfl, rfl⟩
      rw [Tracker.handle, Except.ok.injEq] at ho
      subst ho
      refine ⟨_, rfl, ?_⟩
      have ht := hkept t now
      have hu := hkept u now'
      exact ⟨ht.store.trans (h.store.trans hu.store.symm),
        ht.tally.trans (h.tally.trans hu.tally.symm),
        ht.pending.trans (h.pending.trans hu.pending.symm)⟩

/-- Tasks that are not passes, done at other instants. -/
theorem Matches.inTurn (h : t.Matches u) (now : Nat) (tasks : List (Task × Nat))
    (hedits : ∀ e ∈ tasks, e.1.schedulesPass = false) (t' : Tracker)
    (ht' : t.inTurn source tasks = .ok t') :
    ∃ u', u.inTurn source (tasks.map fun e => (e.1, now)) = .ok u' ∧ t'.Matches u' := by
  induction tasks generalizing t u with
  | nil =>
      simp only [Tracker.inTurn, List.foldlM_nil, pure, Except.pure, Except.ok.injEq] at ht'
      exact ⟨u, rfl, ht' ▸ h⟩
  | cons e rest ih =>
      cases ho : t.handle source e.1 e.2 with
      | error f =>
          simp only [Tracker.inTurn, List.foldlM_cons, ho, bind, Except.bind, reduceCtorEq] at ht'
      | ok o =>
          rw [t.inTurn_cons source e rest o ho] at ht'
          rcases h.handle t u source e.1 e.2 now (hedits e List.mem_cons_self) o ho with
            ⟨o', ho', hnext⟩
          rw [List.map_cons, u.inTurn_cons source _ _ o' ho']
          exact ih o.tracker o'.tracker hnext (fun e he => hedits e (List.mem_cons_of_mem _ he)) ht'

/-- A drain does the edits of its queue in turn. -/
theorem inTurn_of_edits (now : Nat) (edits : List Task) (acc : Outcome Report) (t' : Tracker)
    (ht' : acc.tracker.inTurn source (edits.map fun task => (task, now)) = .ok t') :
    ∃ o, edits.foldlM (fun acc task => followedBy acc fun t => t.handle source task now) acc =
      .ok o ∧ o.tracker = t' := by
  induction edits generalizing acc with
  | nil =>
      simp only [inTurn, List.map_nil, List.foldlM_nil, pure, Except.pure, Except.ok.injEq] at ht'
      exact ⟨acc, rfl, ht'⟩
  | cons task rest ih =>
      rw [List.map_cons] at ht'
      cases ho : acc.tracker.handle source task now with
      | error f =>
          simp only [inTurn, List.foldlM_cons, ho, bind, Except.bind, reduceCtorEq] at ht'
      | ok o =>
          rw [inTurn_cons _ source _ _ o ho] at ht'
          rcases ih ⟨acc.value.merge o.value, o.tracker, acc.trace ++ o.trace⟩ ht' with
            ⟨o', ho', heq⟩
          refine ⟨o', ?_, heq⟩
          simp only [List.foldlM_cons, followedBy, ho, bind, Except.bind, pure, Except.pure]
          exact ho'

/-- Without a pass a drain does what the tasks do in turn. -/
theorem drain_of_edits (tasks : List (Task × Nat)) (now : Nat)
    (hedits : ∀ e ∈ tasks, e.1.schedulesPass = false) (t' : Tracker)
    (ht' : t.inTurn source tasks = .ok t') :
    ∃ o, t.drain source (tasks.map Prod.fst) now = .ok o ∧ t'.Matches o.tracker := by
  rcases Matches.inTurn t t source ⟨rfl, rfl, rfl⟩ now tasks hedits t' ht' with ⟨u, hu, hmatches⟩
  have hall : (tasks.map Prod.fst).filter (fun task => !task.schedulesPass) =
      tasks.map Prod.fst := by
    rw [List.filter_eq_self]
    intro task htask
    rcases List.mem_map.mp htask with ⟨e, he, rfl⟩
    rw [hedits e he, Bool.not_false]
  have hnone : (tasks.map Prod.fst).any Task.schedulesPass = false := by
    rw [List.any_eq_false]
    intro task htask
    rcases List.mem_map.mp htask with ⟨e, he, rfl⟩
    rw [hedits e he]
    exact Bool.false_ne_true
  rcases inTurn_of_edits source now (tasks.map Prod.fst) ⟨{}, t, []⟩ u
    (by rw [List.map_map]; exact hu) with ⟨o, ho, rfl⟩
  refine ⟨o, ?_, hmatches⟩
  simp only [drain, hall, ho, bind, Except.bind, hnone, Bool.false_eq_true, if_false, pure,
    Except.pure]

/-- If a pass is asked for, a drain does the edits in turn and makes it last. -/
theorem drain_of_pass (tasks : List Task) (now : Nat) (hany : tasks.any Task.schedulesPass = true)
    (u : Tracker) (hu : t.inTurn source
      ((tasks.filter fun task => !task.schedulesPass).map fun task => (task, now)) = .ok u)
    (done : Outcome Report) (hdone : u.reconcile source = .ok done) :
    ∃ o, t.drain source tasks now = .ok o ∧ o.tracker = done.tracker := by
  rcases inTurn_of_edits source now _ ⟨{}, t, []⟩ u hu with ⟨o, ho, rfl⟩
  have hlast : followedBy o (fun t => t.reconcile source) =
      .ok ⟨o.value.merge done.value, done.tracker, o.trace ++ done.trace⟩ := by
    simp only [followedBy, hdone, bind, Except.bind, pure, Except.pure]
  refine ⟨⟨o.value.merge done.value, done.tracker, o.trace ++ done.trace⟩, ?_, rfl⟩
  simp only [drain, ho, bind, Except.bind, hany, if_true, hlast]

/-- A notification preserves what lasts, whatever the source says. -/
theorem handle_lasts {P : Store → Prop} (hP : Store.Lasting P) (ht : t.store.Sound) (task : Task)
    (now : Nat) (hedit : task.schedulesPass = false) (o : Outcome Report)
    (ho : t.handle source task now = .ok o) : Step.Lasts P { store := t.store }
      { store := o.tracker.store } := by
  have hshows : PointEdit.Shows source fun _ => True :=
    ⟨fun _ _ => trivial, fun _ _ => trivial, fun _ _ _ => trivial⟩
  have hlaw := hP.law source.isLive fun _ => True
  have hnotified : ∀ (node : Handle) (edit : Tally → Step → Except Fault (Tally × Step)),
      t.notify node edit = .ok o →
      Step.Abides (Step.Lasts P) { store := t.store } Prod.snd
        (edit t.tally { store := t.store }) → P t.store → P o.tracker.store := by
    intro node edit hnotify habides hs
    rcases t.edit_of_notify node edit o hnotify with ⟨tally, s, hok, hstore, _⟩
    exact hstore ▸ habides _ hok hs
  cases task with
  | cycleCompleted => exact absurd hedit.symm Bool.false_ne_true
  | resync => exact absurd hedit.symm Bool.false_ne_true
  | entered node =>
      exact hnotified node _ ho (PointEdit.abides_entered source node _ hlaw _ hshows)
  | left node => exact hnotified node _ ho (PointEdit.abides_left source node _ hlaw _ ht)
  | reparented node =>
      exact hnotified node _ ho (PointEdit.abides_reparented source node _ hlaw _ ht hshows)
  | attributes node kinds =>
      rw [Tracker.handle, Except.ok.injEq] at ho
      subst ho
      unfold attributesChanged
      split <;> exact id

/-- Any task leaves a sound record, whatever the source says. -/
theorem handle_sound (ht : t.store.Sound) (task : Task) (now : Nat) (o : Outcome Report)
    (ho : t.handle source task now = .ok o) : o.tracker.store.Sound := by
  cases hpass : task.schedulesPass with
  | false => exact t.handle_lasts source Store.lasting_sound ht task now hpass o ho ht
  | true =>
      rw [t.handle_pass source task now hpass] at ho
      rcases t.reconcile_spec ht source with ⟨o', ho', hsound, _⟩
      rw [ho, Except.ok.injEq] at ho'
      exact ho' ▸ hsound

/-- Any task leaves a record trim. -/
theorem handle_trim (ht : t.store.Sound) (htrim : t.store.Trim) (task : Task) (now : Nat)
    (o : Outcome Report) (ho : t.handle source task now = .ok o) : o.tracker.store.Trim := by
  cases hpass : task.schedulesPass with
  | false => exact t.handle_lasts source Store.lasting_trim ht task now hpass o ho htrim
  | true =>
      rw [t.handle_pass source task now hpass] at ho
      rcases t.reconcile_cases source o ho with ⟨s, _, hrun, rfl⟩
      exact Pass.abides_run _ (Store.lasting_trim.law _ _) source.proper_snapshot
        Step.trim_relocate _ _ ht s hrun htrim

end Handling

end Tracker

/-- Records that agree with one snapshot are alike. -/
theorem Store.Agrees.alike (s t : Store) (snapshot : Snapshot) (hs : s.Agrees snapshot)
    (ht : t.Agrees snapshot) : s.Alike t where
  root := hs.root.trans ht.root.symm
  parent x := (hs.parent x).trans (ht.parent x).symm
  children x := (hs.children x).trans (ht.children x).symm

namespace Scene

section Turns

variable (s : Scene) (n : Nat) (hs : s.Sound n)

/-- The record of the tracker is sound and shows all of the scene, and no pass is
    due. -/
structure Caught (t : Tracker) : Prop where
  sound : t.store.Sound
  agrees : t.store.Agrees s.source.snapshot
  settled : t.resyncPending = false

include hs

/-- No task fails over a sound record. -/
theorem Sound.handle_succeeds (t : Tracker) (ht : t.store.Sound) (task : Task) (now : Nat) :
    ∃ o, t.handle s.source task now = .ok o := by
  have hnotified : ∀ (node : Handle) (edit : Tally → Step → Except Fault (Tally × Step)),
      (∃ done, edit t.tally { store := t.store } = .ok done) →
      ∃ o, t.notify node edit = .ok o := by
    rintro node edit ⟨done, hdone⟩
    rcases t.notify_spec node edit done.1 done.2 hdone with ⟨o, ho, _⟩
    exact ⟨o, ho⟩
  rcases t.reconcile_spec ht s.source with ⟨o, ho, _⟩
  cases task with
  | cycleCompleted => exact ⟨o, ho⟩
  | resync => exact ⟨o, ho⟩
  | entered node => exact hnotified node _ (hs.entered_succeeds s n node t.tally _ ht)
  | left node =>
      rcases PointEdit.left_spec s.source node t.tally { store := t.store } ht with
        ⟨_, _, hok, _⟩
      exact hnotified node _ ⟨_, hok⟩
  | reparented node => exact hnotified node _ (hs.reparented_succeeds s n node t.tally _ ht)
  | attributes node kinds => exact ⟨_, rfl⟩

omit hs in
/-- A pass catches up with the scene. -/
theorem caught_reconcile (t : Tracker) (ht : t.store.Sound) (o : Outcome Report)
    (ho : t.reconcile s.source = .ok o) : s.Caught o.tracker := by
  rcases t.reconcile_spec ht s.source with ⟨o', ho', hsound, _, hpending, hroot, hlinks⟩
  rw [ho, Except.ok.injEq] at ho'
  subst ho'
  exact ⟨hsound, Store.agrees_of_links _ _ hsound s.source.proper_snapshot hroot hlinks, hpending⟩

/-- What is done after that changes nothing, unless a live node is said to have
    left. -/
theorem Sound.caught_handle (t : Tracker) (hc : s.Caught t) (task : Task) (now : Nat)
    (hleft : ∀ h, task = .left h → s.contains h = false) (o : Outcome Report)
    (ho : t.handle s.source task now = .ok o) : s.Caught o.tracker := by
  have hignored : task.isStructural = true → s.Caught o.tracker := by
    intro htask
    rcases (t.handle_ignored_iff hc.sound s.source (hs.coherent s n) hc.agrees task now htask).mpr
      hleft with ⟨o', ho', _, _, hpending, hstore⟩
    rw [ho, Except.ok.injEq] at ho'
    subst ho'
    exact ⟨hstore ▸ hc.sound, hstore ▸ hc.agrees, hpending.trans hc.settled⟩
  cases task with
  | cycleCompleted => exact s.caught_reconcile t hc.sound o ho
  | resync => exact s.caught_reconcile t hc.sound o ho
  | entered node => exact hignored rfl
  | left node => exact hignored rfl
  | reparented node => exact hignored rfl
  | attributes node kinds =>
      rw [Tracker.handle, Except.ok.injEq] at ho
      subst ho
      unfold Tracker.attributesChanged
      split <;> exact ⟨hc.sound, hc.agrees, hc.settled⟩

/-- Tasks that are done in turn get to their end. If a pass is among them, or
    nothing is to be caught up with, they leave all of the scene and no pass is
    due. -/
theorem Sound.caught_inTurn (tasks : List (Task × Nat)) (t : Tracker) (ht : t.store.Sound)
    (hleft : ∀ h m, (Task.left h, m) ∈ tasks → s.contains h = false) :
    ∃ t', t.inTurn s.source tasks = .ok t' ∧ t'.store.Sound ∧
      (t.store.Trim → t'.store.Trim) ∧
      (s.Caught t ∨ (∃ e ∈ tasks, e.1.schedulesPass = true) → s.Caught t') := by
  induction tasks generalizing t with
  | nil =>
      refine ⟨t, rfl, ht, id, fun h => h.elim id ?_⟩
      rintro ⟨e, he, _⟩
      exact absurd he List.not_mem_nil
  | cons e rest ih =>
      rcases hs.handle_succeeds s n t ht e.1 e.2 with ⟨o, ho⟩
      rcases ih o.tracker (t.handle_sound s.source ht e.1 e.2 o ho)
        fun h m hm => hleft h m (List.mem_cons_of_mem e hm) with
        ⟨t', ht', hsound, htrim, hcaught⟩
      refine ⟨t', (t.inTurn_cons s.source e rest o ho).trans ht', hsound, fun h => ?_,
        fun h => hcaught ?_⟩
      · exact htrim (t.handle_trim s.source ht h e.1 e.2 o ho)
      · by_cases hpass : e.1.schedulesPass = true
        · rw [t.handle_pass s.source e.1 e.2 hpass] at ho
          exact Or.inl (s.caught_reconcile t ht o ho)
        · rcases h with hc | ⟨e', he', hpass'⟩
          · refine Or.inl (hs.caught_handle s n t hc e.1 e.2 (fun h heq => ?_) o ho)
            exact hleft h e.2 (heq ▸ List.mem_cons_self)
          · rcases List.mem_cons.mp he' with rfl | he'
            · exact absurd hpass' hpass
            · exact Or.inr ⟨e', he', hpass'⟩

/-- A drain with a pass in it leaves all of the scene, and no pass is due. -/
theorem Sound.drain_caught (t : Tracker) (ht : t.store.Sound) (tasks : List (Task × Nat))
    (now : Nat) (hany : ∃ e ∈ tasks, e.1.schedulesPass = true)
    (hleft : ∀ h m, (Task.left h, m) ∈ tasks → s.contains h = false) :
    ∃ o, t.drain s.source (tasks.map Prod.fst) now = .ok o ∧
      (t.store.Trim → o.tracker.store.Trim) ∧ s.Caught o.tracker := by
  have hpass : (tasks.map Prod.fst).any Task.schedulesPass = true := by
    rcases hany with ⟨e, he, hpass⟩
    exact List.any_eq_true.mpr ⟨e.1, List.mem_map_of_mem he, hpass⟩
  have hedits : ∀ h m, (Task.left h, m) ∈ ((tasks.map Prod.fst).filter fun task =>
      !task.schedulesPass).map (fun task => (task, now)) → s.contains h = false := by
    intro h m hm
    rcases List.mem_map.mp hm with ⟨task, htask, heq⟩
    rcases List.mem_map.mp (List.mem_of_mem_filter htask) with ⟨e, he, rfl⟩
    rw [Prod.mk.injEq] at heq
    exact hleft h e.2 (heq.1 ▸ he)
  rcases hs.caught_inTurn s n _ t ht hedits with ⟨u, hu, hsound, htrim, _⟩
  rcases hs.handle_succeeds s n u hsound .resync now with ⟨done, hdone⟩
  rcases t.drain_of_pass s.source _ now hpass u hu done hdone with ⟨o, ho, heq⟩
  refine ⟨o, ho, ?_, ?_⟩
  · rw [heq]
    exact fun h => u.handle_trim s.source hsound (htrim h) .resync now done hdone
  · rw [heq]
    exact s.caught_reconcile u hsound done hdone

end Turns

/-- Over a scene that does not change, a drain leaves what the tasks leave if they
    are done in turn, with every pass in its place: the same record and the same
    request for a pass. The scene may be any sound one, which all are that the
    mutations make. No task may say of a live node that it left. The records are
    alike at least, and equal if the first one was trim. -/
theorem Sound.drain_inTurn (s : Scene) (n : Nat) (hs : s.Sound n) (t : Tracker)
    (ht : t.store.check = none) (tasks : List (Task × Nat)) (now : Nat)
    (hleft : ∀ h m, (Task.left h, m) ∈ tasks → s.contains h = false) :
    ∃ o t', t.drain s.source (tasks.map Prod.fst) now = .ok o ∧
      t.inTurn s.source tasks = .ok t' ∧ o.tracker.store.Alike t'.store ∧
      (t.store.Trim → o.tracker.store = t'.store) ∧
      o.tracker.resyncPending = t'.resyncPending := by
  have hsound := t.store.check_eq_none_iff_sound.mp ht
  rcases hs.caught_inTurn s n tasks t hsound hleft with ⟨t', ht', _, htrim, hcaught⟩
  by_cases hany : ∃ e ∈ tasks, e.1.schedulesPass = true
  · rcases hs.drain_caught s n t hsound tasks now hany hleft with ⟨o, ho, htrim', hcaught'⟩
    have hc := hcaught (Or.inr hany)
    have halike := hcaught'.agrees.alike _ _ _ hc.agrees
    exact ⟨o, t', ho, ht', halike, fun h => halike.eq_of_trim _ _ (htrim' h) (htrim h),
      hcaught'.settled.trans hc.settled.symm⟩
  · have hedits : ∀ e ∈ tasks, e.1.schedulesPass = false := fun e he =>
      Bool.eq_false_of_not_eq_true fun hpass => hany ⟨e, he, hpass⟩
    rcases t.drain_of_edits s.source tasks now hedits t' ht' with ⟨o, ho, hmatches⟩
    exact ⟨o, t', ho, ht', hmatches.store ▸ .refl _, fun _ => hmatches.store.symm,
      hmatches.pending.symm⟩

/-- A chain of four nodes. -/
def chain : List Act :=
  [.call (.createRoot "root" Tag.root), .call (.create (.ofParts 0 1) "first" Tag.item),
    .call (.create (.ofParts 1 1) "second" Tag.item),
    .call (.create (.ofParts 2 1) "third" Tag.item)]

/-- A tracker whose record shows the top of the chain below its third node, which
    a node that enters in between tangles. -/
def upended : Tracker :=
  { Tracker.ofSettings {} {} with
    store := (Store.ofRoot (some (.ofParts 2 1))).link (.ofParts 2 1) (.ofParts 0 1) }

-- In turn the pass comes first, and the drain puts it off.
theorem drain_inTurn_of_upended :
    ∃ n, (after chain {}).Grown n ∧ upended.store.check = none ∧ upended.store.Trim ∧
      PointEdit.Tangled (after chain {}).source upended.store (.ofParts 1 1) ∧
      ∃ o t', upended.drain (after chain {}).source
          [.cycleCompleted, .entered (.ofParts 1 1), .left (.ofParts 7 1)] 3 = .ok o ∧
        upended.inTurn (after chain {}).source [(.cycleCompleted, 0), (.entered (.ofParts 1 1), 1),
          (.left (.ofParts 7 1), 2)] = .ok t' ∧
        o.tracker.store = t'.store ∧ o.tracker.resyncPending = t'.resyncPending := by
  have hgrown := Grown.after chain {} 0 .empty (by decide +kernel)
  have hcheck : upended.store.check = none := by decide +kernel
  have htrim : upended.store.Trim := (Store.trim_ofRoot _).link _ _ _
  have htangled : PointEdit.Tangled (after chain {}).source upended.store (.ofParts 1 1) := by
    refine ⟨by decide +kernel, by decide +kernel, .ofParts 0 1, .ofParts 1 1, .ofParts 2 1,
      by decide +kernel, by decide +kernel, by decide +kernel, by decide +kernel, ?_⟩
    rintro ⟨v, hv, hvp, _⟩
    have hbelow : ((after chain {}).source.subtree (.ofParts 1 1)).descendants (.ofParts 1 1) =
        [.ofParts 2 1, .ofParts 3 1] := by decide +kernel
    have hnone : ∀ v ∈ [.ofParts 2 1, .ofParts 3 1], upended.store.parent v = none := by
      decide +kernel
    exact hvp (hnone v (hbelow ▸ hv))
  rcases Sound.drain_inTurn (after chain {}) _ (hgrown.sound _ _) upended hcheck
    [(.cycleCompleted, 0), (.entered (.ofParts 1 1), 1), (.left (.ofParts 7 1), 2)] 3 (by
      intro h m hm
      simp only [List.mem_cons, Prod.mk.injEq, reduceCtorEq, false_and, Task.left.injEq,
        List.not_mem_nil, or_false, false_or] at hm
      rw [hm.1]
      decide +kernel) with ⟨o, t', ho, ht', _, hequal, hpending⟩
  exact ⟨_, hgrown, hcheck, htrim, htangled, o, t', ho, ht', hequal htrim, hpending⟩

end Scene

end TreeWatch
