import TreeWatch.Proofs.Handling

/-!
# Redundant Notifications

What notifications do once the record has caught up. The source is a coherent
tree that no longer changes and the record shows all of it, so whatever a
notification announces is old news.

A node that enters is tracked or dead, and a node that moved is found where it
is. The two look at the source and ignore what no longer applies. A node that
left is taken at its word: the source is not asked, and the node is cut out of
the record even if it is there. So a sequence of notifications is ignored
exactly when none of them says that a live node left.

## Main definitions

* `Source.Coherent`: A source describes one tree, and its nodes are live.
* `Task.isStructural`: A notification about the place of a node.
* `Tracker.Ignores`: A sequence of tasks changes and announces nothing.

## Theorems

* `Source.Coherent.snapshot_spec`: A capture shows the live nodes and their
  parents.
* `Tracker.notify_ignored`: An edit that does nothing leaves the tracker quiet.
* `Tracker.handle_ignored_iff`: One notification that is ignored.
* `Tracker.ignores_iff`: A sequence of them.
-/

namespace TreeWatch

open Forest (Under under_iff_up)

namespace Source

/-- A node that the child lists lead to from the root. -/
def Reachable (source : Source) (h : Handle) : Prop :=
  ∃ r, source.root = some r ∧ Relation.ReflTransGen (fun p c => c ∈ source.children p) r h

/-- The answers of a source fit together: the live nodes are those that the
    root leads to, parent links and child lists agree about them, and the root
    has no parent. -/
structure Coherent (source : Source) : Prop where
  live_iff : ∀ h, source.isLive h = true ↔ source.Reachable h
  parent_iff : ∀ c p, source.isLive c = true →
    (source.parent c = some p ↔ source.isLive p = true ∧ c ∈ source.children p)
  root_top : ∀ r, source.root = some r → source.parent r = none

section Snapshots

variable (source : Source) (hc : source.Coherent)

include hc

theorem Coherent.live_root (r : Handle) (hr : source.root = some r) : source.isLive r = true :=
  (hc.live_iff r).mpr ⟨r, hr, Relation.ReflTransGen.refl⟩

theorem Coherent.live_child (c p : Handle) (hp : source.isLive p = true)
    (hcp : c ∈ source.children p) : source.isLive c = true := by
  rcases (hc.live_iff p).mp hp with ⟨r, hr, hpath⟩
  exact (hc.live_iff c).mpr ⟨r, hr, hpath.tail hcp⟩

/-- The capture of a coherent source holds its live nodes, each below the parent
    that it has. -/
theorem Coherent.captures_spec (r : Handle) (hr : source.root = some r) (t : Snapshot)
    (ht : t.Captures source.children r) :
    (∀ h, t.contains h = source.isLive h) ∧
      ∀ h, source.isLive h = true → t.parent h = source.parent h := by
  have hlive : ∀ h, t.contains h = true → source.isLive h = true := by
    intro h hh
    refine ht.proper.tree.path_induction (P := fun x => source.isLive x = true)
      (fun r' hr' => ?_) (fun c p hp ih => ?_) h
      ((ht.proper.contains_iff h).mp hh)
    · rw [ht.root_eq, Option.some.injEq] at hr'
      exact hr' ▸ hc.live_root source r hr
    · exact hc.live_child source c p ih (ht.reported c p hp)
  have hheld : ∀ h, source.isLive h = true → t.contains h = true := by
    intro h hh
    rcases (hc.live_iff h).mp hh with ⟨r', hr', hpath⟩
    rw [hr, Option.some.injEq] at hr'
    subst hr'
    induction hpath with
    | refl => exact (ht.proper.contains_iff r).mpr (Or.inl ht.root_eq)
    | @tail p c hpath hcp ih =>
        exact ht.closed p (ih ((hc.live_iff p).mpr ⟨r, hr, hpath⟩)) c hcp
  refine ⟨fun h => Bool.eq_iff_iff.mpr ⟨hlive h, hheld h⟩, fun h hh => ?_⟩
  rcases (ht.proper.contains_iff h).mp (hheld h hh) with hroot | ⟨p, hp⟩
  · rw [ht.proper.tree.root_up h hroot, hc.root_top h (hr.trans (ht.root_eq.symm.trans hroot))]
  · have hpl := hlive p (ht.proper.contains_of_parent t h p hp).2
    rw [hp, (hc.parent_iff h p hh).mpr ⟨hpl, ht.reported h p hp⟩]

/-- A record that shows all of a coherent source tracks the live nodes, each
    below the parent that it has. -/
theorem Coherent.agrees_spec (s : Store) (ha : s.Agrees source.snapshot) :
    (∀ h, s.contains h = source.isLive h) ∧
      ∀ h, source.isLive h = true → s.parent h = source.parent h := by
  cases hr : source.root with
  | some r =>
      have hsnap : source.snapshot = Snapshot.capture source.children r := by
        simp only [snapshot, hr]
      rw [hsnap] at ha
      rcases hc.captures_spec source r hr _ (Snapshot.captures_capture source.children r) with
        ⟨hcontains, hparent⟩
      exact ⟨fun h => (ha.contains h).trans (hcontains h),
        fun h hh => (ha.parent h).trans (hparent h hh)⟩
  | none =>
      have hdead : ∀ h, source.isLive h = false := by
        intro h
        rw [← Bool.not_eq_true, hc.live_iff]
        rintro ⟨r, hr', _⟩
        rw [hr] at hr'
        exact absurd hr' (by simp only [reduceCtorEq, not_false_eq_true])
      have hsnap : source.snapshot = Snapshot.empty := by
        simp only [snapshot, hr]
      refine ⟨fun h => ?_, fun h hh => ?_⟩
      · rw [ha.contains, hsnap, Snapshot.contains_empty, hdead]
      · rw [hdead] at hh
        exact absurd hh Bool.false_ne_true

end Snapshots

end Source

/-- A notification about the place of a node. -/
def Task.isStructural : Task → Bool
  | .entered _ | .left _ | .reparented _ => true
  | _ => false

namespace Tracker

/-- Each task of a sequence is handled without an announcement, asks for no
    pass, and leaves the record as it is. The source does not change. -/
def Ignores (t : Tracker) (source : Source) : List (Task × Nat) → Prop
  | [] => True
  | (task, now) :: rest =>
    ∃ o, t.handle source task now = .ok o ∧ o.trace = [] ∧ o.value.resyncRequested = false ∧
      o.tracker.resyncPending = t.resyncPending ∧ o.tracker.store = t.store ∧
      o.tracker.Ignores source rest

/-- An edit that leaves its step alone leaves the tracker quiet. -/
theorem notify_ignored (t : Tracker) (node : Handle)
    (edit : Tally → Step → Except Fault (Tally × Step)) (tally : Tally)
    (hedit : edit t.tally { store := t.store } = .ok (tally, { store := t.store })) :
    ∃ o, t.notify node edit = .ok o ∧ o.value = {} ∧ o.trace = [] ∧
      o.tracker.store = t.store ∧ o.tracker.resyncPending = t.resyncPending := by
  unfold notify
  rw [hedit]
  exact ⟨_, rfl, rfl, rfl, rfl, rfl⟩

section Caught

variable (t : Tracker) (ht : t.store.Sound) (source : Source) (hc : source.Coherent)
  (ha : t.store.Agrees source.snapshot)

include hc ha

-- What enters is tracked already, or dead.
theorem entered_ignored (node : Handle) (tally : Tally) (s : Step) (hs : s.store = t.store) :
    PointEdit.entered source node tally s = .ok (tally.ignore, s) := by
  unfold PointEdit.entered
  rw [hs, (hc.agrees_spec source t.store ha).1 node]
  cases source.isLive node with
  | true => rfl
  | false => rfl

-- What moved is dead or has the parent it is recorded under.
theorem reparented_ignored (node : Handle) (tally : Tally) (s : Step) (hs : s.store = t.store) :
    PointEdit.reparented source node tally s = .ok (tally.ignore, s) := by
  rcases hc.agrees_spec source t.store ha with ⟨hcontains, hparent⟩
  cases hl : source.isLive node with
  | true =>
      simp only [PointEdit.reparented, hs, hcontains, hl, hparent node hl, Bool.not_true,
        Bool.false_eq_true, if_false, if_true]
  | false =>
      simp only [PointEdit.reparented, hs, hcontains, hl, Bool.not_false, if_true,
        entered_ignored t source hc ha node tally s hs]

-- What left is dead and therefore not tracked.
theorem left_ignored (node : Handle) (tally : Tally) (s : Step) (hs : s.store = t.store)
    (hdead : source.isLive node = false) :
    PointEdit.left source node tally s = .ok (tally.ignore, s) := by
  simp only [PointEdit.left, hs, (hc.agrees_spec source t.store ha).1, hdead, Bool.not_false,
    if_true]

include ht

/-- A notification that a live node left changes the record: the node is cut
    out of it. -/
theorem store_ne_of_left (node : Handle) (now : Nat) (hlive : source.isLive node = true)
    (o : Outcome Report) (ho : t.handle source (.left node) now = .ok o) :
    o.tracker.store ≠ t.store := by
  intro hsame
  have hnode : t.store.contains node = true :=
    ((hc.agrees_spec source t.store ha).1 node).trans hlive
  rcases t.handle_edit_spec ht source (.left node) now rfl not_false with
    ⟨o', asks, ho', _, _, _, hhandled⟩
  rw [ho, Except.ok.injEq] at ho'
  subst ho'
  rw [hsame] at hhandled
  cases hhandled with
  | left _ _ hleaves =>
      generalize hu : t.store = u at hleaves hnode
      cases hleaves with
      | untracked hout =>
          rw [hnode] at hout
          exact Bool.false_ne_true hout.symm
      | root hroot =>
          exact absurd hroot (by simp only [Store.empty, reduceCtorEq, not_false_eq_true])
      | cut _ _ hcut => exact ((hcut.contains_iff node).mp hnode).2 (Under.refl node)

/-- A notification is ignored unless it says that a live node left. -/
theorem handle_ignored_iff (task : Task) (now : Nat) (htask : task.isStructural = true) :
    (∃ o, t.handle source task now = .ok o ∧ o.trace = [] ∧ o.value.resyncRequested = false ∧
      o.tracker.resyncPending = t.resyncPending ∧ o.tracker.store = t.store) ↔
      ∀ h, task = .left h → source.isLive h = false := by
  cases task with
  | cycleCompleted => exact absurd htask Bool.false_ne_true
  | resync => exact absurd htask Bool.false_ne_true
  | attributes node kinds => exact absurd htask Bool.false_ne_true
  | entered node =>
      refine iff_of_true ?_ fun h he => absurd he (by simp only [reduceCtorEq, not_false_eq_true])
      rcases t.notify_ignored node _ _ (entered_ignored t source hc ha node t.tally _ rfl) with
        ⟨o, ho, hvalue, htrace, hstore, hpending⟩
      exact ⟨o, ho, htrace, by rw [hvalue], hpending, hstore⟩
  | reparented node =>
      refine iff_of_true ?_ fun h he => absurd he (by simp only [reduceCtorEq, not_false_eq_true])
      rcases t.notify_ignored node _ _ (reparented_ignored t source hc ha node t.tally _ rfl) with
        ⟨o, ho, hvalue, htrace, hstore, hpending⟩
      exact ⟨o, ho, htrace, by rw [hvalue], hpending, hstore⟩
  | left node =>
      simp only [Task.left.injEq, forall_eq']
      constructor
      · rintro ⟨o, ho, _, _, _, hstore⟩
        rw [← Bool.not_eq_true]
        exact fun hlive => store_ne_of_left t ht source hc ha node now hlive o ho hstore
      · intro hdead
        rcases t.notify_ignored node _ _ (left_ignored t source hc ha node t.tally _ rfl hdead) with
          ⟨o, ho, hvalue, htrace, hstore, hpending⟩
        exact ⟨o, ho, htrace, by rw [hvalue], hpending, hstore⟩

end Caught

/-- A sequence of notifications about a coherent source that does not change,
    to a tracker whose record shows all of it, is ignored if and only if none
    of them says that a live node left. -/
theorem ignores_iff (source : Source) (hc : source.Coherent) (t : Tracker)
    (ht : t.store.check = none) (ha : t.store.Agrees source.snapshot) (tasks : List (Task × Nat))
    (htasks : ∀ e ∈ tasks, e.1.isStructural = true) :
    t.Ignores source tasks ↔ ∀ h now, (Task.left h, now) ∈ tasks → source.isLive h = false := by
  induction tasks generalizing t with
  | nil => simp only [Ignores, List.not_mem_nil, false_implies, implies_true]
  | cons e rest ih =>
      rcases e with ⟨task, now⟩
      have hsound := t.store.check_eq_none_iff_sound.mp ht
      have hone := t.handle_ignored_iff hsound source hc ha task now (htasks _ List.mem_cons_self)
      -- After an ignored task the record is the same and the rest is up to the rest.
      have hrest : ∀ o : Outcome Report, o.tracker.store = t.store →
          (o.tracker.Ignores source rest ↔
            ∀ h now, (Task.left h, now) ∈ rest → source.isLive h = false) := by
        intro o hstore
        exact ih o.tracker (hstore ▸ ht) (hstore ▸ ha) fun e he =>
          htasks e (List.mem_cons_of_mem _ he)
      constructor
      · rintro ⟨o, ho, htrace, hreq, hpending, hstore, hall⟩ h now' hm
        rcases List.mem_cons.mp hm with he | hm
        · rw [Prod.mk.injEq] at he
          exact hone.mp ⟨o, ho, htrace, hreq, hpending, hstore⟩ h he.1.symm
        · exact (hrest o hstore).mp hall h now' hm
      · intro hall
        rcases hone.mpr fun h he => hall h now (he ▸ List.mem_cons_self) with
          ⟨o, ho, htrace, hreq, hpending, hstore⟩
        exact ⟨o, ho, htrace, hreq, hpending, hstore,
          (hrest o hstore).mpr fun h now' hm => hall h now' (List.mem_cons_of_mem _ hm)⟩

/-- A root with one child. -/
def pair : Source where
  root := some ⟨1⟩
  children h := if h = ⟨1⟩ then [⟨2⟩] else []
  parent h := if h = ⟨2⟩ then some ⟨1⟩ else none
  isLive h := h = ⟨1⟩ ∨ h = ⟨2⟩
  describe _ := none

theorem coherent_pair : pair.Coherent := by
  have hlive : ∀ h, pair.isLive h = true ↔ h = ⟨1⟩ ∨ h = ⟨2⟩ := fun h => decide_eq_true_iff
  have hkids : ∀ p c, c ∈ pair.children p ↔ p = ⟨1⟩ ∧ c = ⟨2⟩ := by
    intro p c
    by_cases hp : p = ⟨1⟩
    · simp only [pair, hp, if_true, List.mem_singleton, true_and]
    · simp only [pair, hp, if_false, List.not_mem_nil, false_and]
  have hparent : ∀ c p, pair.parent c = some p ↔ c = ⟨2⟩ ∧ p = ⟨1⟩ := by
    intro c p
    by_cases hc : c = ⟨2⟩
    · simp only [pair, hc, if_true, Option.some.injEq, true_and, eq_comm]
    · simp only [pair, hc, if_false, reduceCtorEq, false_and]
  refine ⟨fun h => ?_, fun c p _ => ?_, fun r hr => ?_⟩
  · rw [hlive]
    constructor
    · rintro (rfl | rfl)
      · exact ⟨⟨1⟩, rfl, .refl⟩
      · exact ⟨⟨1⟩, rfl, .single ((hkids _ _).mpr ⟨rfl, rfl⟩)⟩
    · rintro ⟨r, hr, hpath⟩
      rcases Relation.ReflTransGen.cases_tail hpath with rfl | ⟨p, _, hp⟩
      · exact Or.inl (Option.some.inj hr).symm
      · exact Or.inr ((hkids p h).mp hp).2
  · rw [hlive, hkids, hparent]
    tauto
  · rw [← Option.some.inj hr]
    rfl

/-- A tracker whose record shows the two nodes. -/
def pairTracker : Tracker :=
  { Tracker.ofSettings {} {} with store := (Store.ofRoot (some ⟨1⟩)).link ⟨1⟩ ⟨2⟩ }

theorem agrees_pairTracker : pairTracker.store.Agrees pair.snapshot := by
  have hs := pairTracker.store.check_eq_none_iff_sound.mp (by decide +kernel)
  have hlinks : pairTracker.store.parents = pair.snapshot.parents := by decide +kernel
  refine Store.agrees_of_links _ _ hs pair.proper_snapshot rfl fun h => ?_
  rw [Store.parent, Snapshot.parent, hlinks]

-- Old news about a live node and about one that never was.
theorem ignores_iff_of_pair :
    pair.Coherent ∧ pairTracker.store.check = none ∧
      pairTracker.store.Agrees pair.snapshot ∧
      pairTracker.Ignores pair [(.entered ⟨2⟩, 0), (.reparented ⟨2⟩, 0), (.left ⟨3⟩, 0)] := by
  have hcheck : pairTracker.store.check = none := by decide +kernel
  refine ⟨coherent_pair, hcheck, agrees_pairTracker,
    (ignores_iff pair coherent_pair pairTracker hcheck agrees_pairTracker _ (by decide)).mpr ?_⟩
  intro h now hm
  simp only [List.mem_cons, Prod.mk.injEq, reduceCtorEq, false_and, Task.left.injEq,
    List.not_mem_nil, or_false, false_or] at hm
  exact hm.1 ▸ rfl

-- The child is live, and the notification that it left cuts it out.
theorem not_ignores_left :
    ¬ ∀ (source : Source) (t : Tracker) (tasks : List (Task × Nat)), source.Coherent →
      t.store.check = none → t.store.Agrees source.snapshot →
      (∀ e ∈ tasks, e.1.isStructural = true) → t.Ignores source tasks := by
  intro hall
  rcases hall pair pairTracker [(.left ⟨2⟩, 0)] coherent_pair (by decide +kernel)
    agrees_pairTracker (by decide) with ⟨o, ho, htrace, _⟩
  have hloud : (match pairTracker.handle pair (.left ⟨2⟩) 0 with
      | .error _ => false
      | .ok o => o.trace.isEmpty) = false := by
    decide +kernel
  rw [ho] at hloud
  simp only [htrace, List.isEmpty_nil, Bool.true_eq_false] at hloud

end Tracker

end TreeWatch
