import TreeWatch.Proofs.Handling
import TreeWatch.Proofs.Mourning

/-!
# Passes and Notifications Mourn

A full pass and the three notifications keep to every law of steps, so they
mourn, and so do the operations of a tracker.

What is new has to be alive. A pass takes what it puts in from its snapshot,
so it mourns those that are not in there. A notification takes it from the
source, which is `Lively` if all that it shows is alive.

## Main definitions

* `PointEdit.Lively`: What a source shows is alive.

## Theorems

* `Pass.mourning_run`: A full pass.
* `PointEdit.mourning_entered`, `PointEdit.mourning_left`,
  `PointEdit.mourning_reparented`: The three notifications.
* `Tracker.mourns_reconcile`, `Tracker.mourns_handle`, `Tracker.mourns_tick`:
  What a tracker does.
-/

namespace TreeWatch

namespace Pass

open Step (Mourning)

/-- A full pass over a sound record mourns those that are not in the
    snapshot. -/
theorem mourning_run (live : Snapshot) (hlive : live.Proper) (isStrict : Bool) (s : Step)
    (hs : s.store.Sound) : Mourning live.contains s id (run isStrict live s) :=
  abides_run live (Step.law_mourns _) hlive (Step.mourning_relocate _) isStrict s hs

end Pass

namespace PointEdit

open Step (Mourning)

/-- What a source shows is alive: its root, and what it captures below a live
    node. -/
structure Lively (source : Source) : Prop where
  root : ∀ r, source.root = some r → source.isLive r = true
  below : ∀ h, ∀ x ∈ (source.subtree h).descendants h, source.isLive x = true

variable (source : Source) (node : Handle) (tally : Tally) (s : Step)

-- What is live may come in.
theorem Lively.shows (hsource : Lively source) : Shows source (source.isLive · = true) :=
  ⟨hsource.root, fun _ h => h, hsource.below⟩

/-- A node that enters, over any record. -/
theorem mourning_entered (hsource : Lively source) :
    Mourning source.isLive s Prod.snd (entered source node tally s) :=
  abides_entered source node tally (Step.law_mourns _) s (hsource.shows source)

variable (hs : s.store.Sound)

include hs

/-- A node that leaves a sound record. -/
theorem mourning_left : Mourning source.isLive s Prod.snd (left source node tally s) :=
  abides_left source node tally (Step.law_mourns _) s hs

/-- A node that moves in a sound record. -/
theorem mourning_reparented (hsource : Lively source) :
    Mourning source.isLive s Prod.snd (reparented source node tally s) :=
  abides_reparented source node tally (Step.law_mourns _) s hs (hsource.shows source)

end PointEdit

-- A step that starts without a trace.
theorem Step.Mourning.whole {α : Type} (isAlive : Handle → Bool) (t : Store) (out : α → Step)
    (r : Except Fault α) (ht : t.Sound) (h : Mourning isAlive { store := t } out r) (a : α)
    (ha : r = .ok a) : TreeWatch.Mourns isAlive t (out a).trace (out a).store := by
  rcases h a ha ht.tidy with ⟨trace, htrace, hmourns⟩
  rw [List.nil_append] at htrace
  exact htrace ▸ hmourns

namespace Tracker

-- Attribute changes are announced, and no deletion.
theorem mourns_publish (isAlive : Handle → Bool) (t : Tracker) (ht : t.store.Tidy)
    (batch : List (Handle × Attributes)) :
    Mourns isAlive t.store (t.publish batch).trace (t.publish batch).tracker.store := by
  rw [(t.publish_spec batch).1]
  refine .of_gains isAlive _ _ _ (.refl t.store _ ht) fun n hn h => ?_
  rcases List.mem_filterMap.mp hn with ⟨e, _, he⟩
  rcases Option.map_eq_some_iff.mp he with ⟨i, _, rfl⟩
  exact Event.noConfusion

variable (t : Tracker) (ht : t.store.Sound) (source : Source)

include ht

theorem mourns_reconcile (o : Outcome Report) (ho : t.reconcile source = .ok o) :
    Mourns source.snapshot.contains t.store o.trace o.tracker.store := by
  unfold reconcile at ho
  cases hrun : Pass.run t.settings.isStrict source.snapshot { store := t.store } with
  | error f => simp only [hrun, bind, Except.bind, reduceCtorEq] at ho
  | ok s =>
      simp only [hrun, bind, Except.bind, pure, Except.pure, Except.ok.injEq] at ho
      rw [← ho, (writeReport_keeps _ _ _ _ _).1]
      exact (Pass.mourning_run _ source.proper_snapshot _ _ ht).whole _ _ id _ ht s hrun

variable (hlive : ∀ h, source.snapshot.contains h = source.isLive h)

include hlive

theorem mourns_tick (now : Nat) (o : Outcome Tick) (ho : t.tick source now = .ok o) :
    Mourns source.isLive t.store o.trace o.tracker.store := by
  have hflush : ∀ (u : Tracker) (before : List Notice),
      Mourns source.isLive t.store before u.store → ∀ batch coalescer,
      Mourns source.isLive t.store
        (before ++ ({ u with coalescer := coalescer }.publish batch).trace)
        ({ u with coalescer := coalescer }.publish batch).tracker.store := by
    intro u before hu batch coalescer
    exact hu.append _ _ _ _ _ _
      (mourns_publish source.isLive { u with coalescer := coalescer } hu.tidy batch)
  unfold tick at ho
  by_cases hpending : t.resyncPending = true
  · rw [if_pos hpending] at ho
    cases hpass : t.reconcile source with
    | error f => simp only [hpass, bind, Except.bind, reduceCtorEq] at ho
    | ok done =>
        simp only [hpass, bind, Except.bind, pure, Except.pure, Except.ok.injEq] at ho
        have hmourns := t.mourns_reconcile ht source done hpass
        rw [funext hlive] at hmourns
        rw [← ho]
        exact hflush _ _ hmourns _ _
  · rw [if_neg hpending] at ho
    simp only [bind, Except.bind, pure, Except.pure, Except.ok.injEq] at ho
    rw [← ho]
    exact hflush t [] (.of_gains _ _ _ _ (.refl t.store _ ht.tidy) fun _ hn =>
      absurd hn List.not_mem_nil) _ _

theorem mourns_handle (hsource : PointEdit.Lively source) (task : Task) (now : Nat)
    (o : Outcome Report) (ho : t.handle source task now = .ok o) :
    Mourns source.isLive t.store o.trace o.tracker.store := by
  have hedit : ∀ (node : Handle) (edit : Tally → Step → Except Fault (Tally × Step)),
      (∀ tally, Step.Mourning source.isLive { store := t.store } Prod.snd
        (edit tally { store := t.store })) →
      t.notify node edit = .ok o → Mourns source.isLive t.store o.trace o.tracker.store := by
    intro node edit hmourning hok
    rcases t.edit_of_notify node edit o hok with ⟨tally, s, hs, hstore, htrace⟩
    rw [hstore, htrace]
    exact (hmourning t.tally).whole _ _ Prod.snd _ ht (tally, s) hs
  cases task with
  | cycleCompleted => exact funext hlive ▸ t.mourns_reconcile ht source o ho
  | resync => exact funext hlive ▸ t.mourns_reconcile ht source o ho
  | entered node =>
      exact hedit node _ (fun tally => PointEdit.mourning_entered source node tally _ hsource) ho
  | left node =>
      exact hedit node _ (fun tally => PointEdit.mourning_left source node tally _ ht) ho
  | reparented node =>
      exact hedit node _
        (fun tally => PointEdit.mourning_reparented source node tally _ ht hsource) ho
  | attributes node kinds =>
      rw [handle, Except.ok.injEq] at ho
      rw [← ho]
      have hstore : (t.attributesChanged node kinds now).store = t.store := by
        unfold attributesChanged
        split <;> rfl
      rw [hstore]
      exact .of_gains _ _ _ _ (.refl t.store _ ht.tidy) fun _ hn => absurd hn List.not_mem_nil

end Tracker

end TreeWatch
