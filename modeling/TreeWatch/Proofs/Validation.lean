import TreeWatch.Proofs.Convergence

/-!
# Handles Held by Consumers

A consumer keeps a handle while the scene goes on. A check of the handle
compares the record with the scene as both are at that moment, whatever is
still on its way, so a handle that passes is live and where the record has it.

A check that fails asks for a full pass, and the pass makes the record a mirror
of the scene, in which exactly the live handles pass. The one exception is a
handle that is neither tracked nor live: it is refused without a pass, and it
would be refused after one.

## Theorems

* `Validity.ofHandle_eq_valid_iff`: What it means to pass, in a sound record.
* `Scene.Mirrored.valid_iff`: In a mirror of a scene the live handles pass.
* `Tracker.validate_spec`: What a check leaves alone, and when it asks for a pass.
* `Tracker.resolve_iff`: Handles that pass have a cell.
* `World.Reached.validates`: Checks are sound and repair what they find.
-/

namespace TreeWatch

namespace Validity

variable (store : Store) (source : Source) (node : Handle)

-- What is not tracked is found out first.
theorem ofHandle_eq_untracked_iff (checkLive : Bool) :
    ofHandle checkLive store source node = .untracked ↔ store.contains node = false := by
  unfold ofHandle
  cases store.contains node with
  | false => simp only [Bool.not_false, if_true]
  | true =>
      simp only [Bool.not_true, Bool.false_eq_true, if_false]
      repeat' split
      all_goals simp only [reduceCtorEq, Bool.true_eq_false]

/-- In a sound record no tracked node is cut off. A node passes if it is tracked,
    live, and where the record has it. -/
theorem ofHandle_eq_valid_iff (hs : store.Sound) :
    ofHandle true store source node = .valid ↔
      store.contains node = true ∧ source.isLive node = true ∧
        inPlace store source node = true := by
  unfold ofHandle
  cases hnode : store.contains node with
  | false =>
      simp only [Bool.not_false, if_true, reduceCtorEq, Bool.false_eq_true, false_and]
  | true =>
      simp only [store.isReachable_of_sound hs node hnode, Bool.not_true, Bool.false_eq_true,
        if_false, true_and]
      cases source.isLive node with
      | false => simp only [Bool.not_false, if_true, reduceCtorEq, Bool.false_eq_true, false_and]
      | true =>
          simp only [Bool.not_true, Bool.false_eq_true, if_false, true_and]
          cases inPlace store source node with
          | false => simp only [Bool.false_eq_true, if_false, reduceCtorEq]
          | true => simp only [if_true]

end Validity

namespace Scene

variable (s : Scene) (n : Nat) (hs : s.Sound n) (t : Store) (ht : t.Sound) (hm : s.Mirrored t)

include hs hm

-- A mirror tracks what is live.
theorem Mirrored.contains_eq (h : Handle) : t.contains h = s.contains h := by
  rw [Bool.eq_iff_iff, t.contains_iff, hs.live, hm.root]
  refine or_congr_right (exists_congr fun p => ?_)
  rw [hm.up]

include ht

/-- In a mirror of a scene exactly the live handles pass. -/
theorem Mirrored.valid_iff (h : Handle) :
    Validity.ofHandle true t s.source h = .valid ↔ s.contains h = true := by
  rw [Validity.ofHandle_eq_valid_iff t s.source h ht, hm.contains_eq s n hs t h]
  have hplace : Validity.inPlace t s.source h = true := by
    unfold Validity.inPlace
    by_cases hroot : t.root = some h
    · rw [if_pos hroot, decide_eq_true_eq]
      exact hm.root.symm.trans hroot
    · rw [if_neg hroot, decide_eq_true_eq]
      exact (hm.up h).symm
  exact ⟨fun hall => hall.1, fun hh => ⟨hh, hh, hplace⟩⟩

end Scene

namespace Tracker

variable (t : Tracker) (source : Source) (node : Handle)

-- What a check answers.
theorem validate_iff : (t.validate source node).1 = true ↔
    Validity.ofHandle t.settings.validateLive t.store source node = .valid := by
  rcases t.validate_cases source node with ⟨hvalid, hsame⟩ | ⟨hvalid, j, hfailed⟩
  · rw [hsame]
    exact iff_of_true rfl hvalid
  · rw [hfailed]
    exact iff_of_false Bool.false_ne_true hvalid

/-- A check leaves the record, the settings and what was announced alone. One that
    fails asks for a pass, unless the handle is neither tracked nor live. -/
theorem validate_spec : (t.validate source node).2.store = t.store ∧
    (t.validate source node).2.settings = t.settings ∧
    (t.validate source node).2.emitted = t.emitted ∧
    ((t.validate source node).1 = false → (t.validate source node).2.resyncPending =
      (t.resyncPending || (Validity.ofHandle t.settings.validateLive t.store source node ≠
        .untracked || source.isLive node))) := by
  rcases t.validate_cases source node with ⟨_, hsame⟩ | ⟨_, j, hfailed⟩
  · rw [hsame]
    exact ⟨rfl, rfl, rfl, fun h => absurd h.symm Bool.false_ne_true⟩
  · rw [hfailed]
    exact ⟨rfl, rfl, rfl, fun _ => rfl⟩

/-- A handle that passes has a cell, in a sound record. -/
theorem resolve_iff (ht : t.store.Sound) :
    (∃ i, (t.resolve source node).1 = .ok i) ↔ (t.validate source node).1 = true := by
  rcases t.validate_cases source node with ⟨hvalid, hsame⟩ | ⟨hvalid, j, hfailed⟩
  · have hnode : t.store.contains node = true := by
      rw [← Bool.not_eq_false]
      intro huntracked
      have h := (Validity.ofHandle_eq_untracked_iff _ source node
        t.settings.validateLive).mpr huntracked
      rw [hvalid] at h
      exact absurd h (by simp only [reduceCtorEq, not_false_eq_true])
    have hshown := ht.indexForNode_isSome t.store node
    rw [hnode] at hshown
    rcases Option.isSome_iff_exists.mp hshown with ⟨i, hi⟩
    simp only [resolve, hsame, hi]
    exact iff_of_true ⟨i, rfl⟩ trivial
  · simp only [resolve, hfailed]
    exact iff_of_false (fun ⟨i, hi⟩ => absurd hi (by simp only [reduceCtorEq, not_false_eq_true]))
      Bool.false_ne_true

-- A tick leaves the settings alone.
theorem settings_tick (now : Nat) (o : Outcome Tick) (ho : t.tick source now = .ok o) :
    o.tracker.settings = t.settings := by
  have hpublish : ∀ (u : Tracker) batch, (u.publish batch).tracker.settings = u.settings := by
    intro u batch
    simp only [publish]
    split <;> rfl
  unfold tick at ho
  by_cases hpending : t.resyncPending = true
  · rw [if_pos hpending] at ho
    cases hpass : t.reconcile source with
    | error f => simp only [hpass, bind, Except.bind, reduceCtorEq] at ho
    | ok done =>
        rcases t.reconcile_cases source done hpass with ⟨s, j, _, rfl⟩
        simp only [hpass, bind, Except.bind, pure, Except.pure, Except.ok.injEq] at ho
        rw [← ho]
        exact hpublish _ _
  · rw [if_neg hpending] at ho
    simp only [bind, Except.bind, pure, Except.pure, Except.ok.injEq] at ho
    rw [← ho]
    exact hpublish _ _

end Tracker

/-- After a check that failed, a tick leaves a record in which the handle passes
    exactly if it is live. Either the tick makes the pass that was asked for, or
    the handle was unknown on both sides and still is. -/
theorem Scene.Sound.heals (s : Scene) (n : Nat) (hs : s.Sound n) (t : Tracker)
    (ht : t.store.Sound) (hlive : t.settings.validateLive = true) (h : Handle)
    (hfailed : (t.validate s.source h).1 = false) (now : Nat) :
    ∃ o, (t.validate s.source h).2.tick s.source now = .ok o ∧ o.tracker.store.Sound ∧
      ((o.tracker.validate s.source h).1 = true ↔ s.contains h = true) := by
  have hinvalid : ¬ Validity.ofHandle true t.store s.source h = .valid := by
    rw [← hlive, ← t.validate_iff, hfailed]
    exact Bool.false_ne_true
  rcases t.validate_spec s.source h with ⟨hstore, hsettings, _, hasks⟩
  have hasked := hasks hfailed
  generalize (t.validate s.source h).2 = u at *
  rcases u.tick_spec (hstore ▸ ht) s.source now with ⟨o, ho, hsound, _, _, hkept, hpassed⟩
  refine ⟨o, ho, hsound, ?_⟩
  rw [o.tracker.validate_iff, (u.settings_tick s.source now o ho).trans hsettings, hlive]
  cases hpending : u.resyncPending with
  | true =>
      rcases hs.snapshot_links with ⟨hroot, hlinks⟩
      have hm : s.Mirrored o.tracker.store := ⟨(hpassed hpending).1.trans hroot,
        fun x => ((hpassed hpending).2 x).trans (hlinks x)⟩
      exact hm.valid_iff s n hs _ hsound h
  | false =>
      -- No pass was asked for: the handle is neither tracked nor live.
      rw [hkept hpending, hstore]
      rw [hpending, eq_comm, Bool.or_eq_false_iff, Bool.or_eq_false_iff] at hasked
      refine iff_of_false hinvalid ?_
      rw [show s.contains h = false from hasked.2.2]
      exact Bool.false_ne_true

namespace World

/-- In every world that is reached, if checks ask the scene: A handle that passes
    is live, and it is the root or has the parent that the record has. A check
    announces nothing and leaves the record alone. If a handle does not pass, a
    tick without a change of the scene in between succeeds, and then the handle
    passes, and has a cell, exactly if it is live. -/
theorem Reached.validates (w : World) (hw : w.Reached)
    (hlive : w.tracker.settings.validateLive = true) (h : Handle) :
    ((w.tracker.validate w.scene.source h).1 = true → w.scene.contains h = true ∧
      ((w.tracker.store.root = some h ∧ w.scene.root = some h) ∨
        ∃ p, w.tracker.store.parent h = some p ∧ w.scene.parent h = some p)) ∧
    ((w.tracker.validate w.scene.source h).2.emitted = w.tracker.emitted ∧
      (w.tracker.validate w.scene.source h).2.store = w.tracker.store) ∧
    ((w.tracker.validate w.scene.source h).1 = false → ∀ now, ∃ o,
      (w.tracker.validate w.scene.source h).2.tick w.scene.source now = .ok o ∧
      ((o.tracker.validate w.scene.source h).1 = true ↔ w.scene.contains h = true) ∧
      ((∃ i, (o.tracker.resolve w.scene.source h).1 = .ok i) ↔ w.scene.contains h = true)) := by
  have hin := hw.inStep w
  rcases w.tracker.validate_spec w.scene.source h with ⟨hstore, _, hemitted, _⟩
  refine ⟨fun hpassed => ?_, ⟨hemitted, hstore⟩, fun hfailed now => ?_⟩
  · rw [w.tracker.validate_iff, hlive, Validity.ofHandle_eq_valid_iff _ _ _ hin.record] at hpassed
    rcases hpassed with ⟨htracked, hh, hplace⟩
    refine ⟨hh, ?_⟩
    unfold Validity.inPlace at hplace
    by_cases hroot : w.tracker.store.root = some h
    · rw [if_pos hroot, decide_eq_true_eq] at hplace
      exact Or.inl ⟨hroot, hplace⟩
    · rw [if_neg hroot, decide_eq_true_eq] at hplace
      rcases ((w.tracker.store.contains_iff h).mp htracked).resolve_left hroot with ⟨p, hp⟩
      exact Or.inr ⟨p, hp, hplace.trans hp⟩
  · rcases hin.scene.heals w.scene _ w.tracker hin.record hlive h hfailed now with
      ⟨o, ho, hsound, hvalid⟩
    exact ⟨o, ho, hvalid, (o.tracker.resolve_iff w.scene.source h hsound).trans hvalid⟩

/-- Two children are recorded, and then the second is moved under the first. -/
def earlyMove : List Action :=
  [.call (.createRoot "root" Tag.root),
    .call (.create (Handle.ofParts 0 1) "first" Tag.item),
    .call (.create (Handle.ofParts 0 1) "second" Tag.item),
    .deliver, .next 0, .next 0, .next 0,
    .call (.reparent (Handle.ofParts 2 1) (Handle.ofParts 1 1))]

-- The moved child does not pass. After one tick it does.
theorem validates_of_earlyMove :
    ∃ w : World, w.Reached ∧ w.tracker.settings.validateLive = true ∧
      (w.tracker.validate w.scene.source (Handle.ofParts 2 1)).1 = false ∧
      ∃ o, (w.tracker.validate w.scene.source (Handle.ofParts 2 1)).2.tick w.scene.source 9 =
          .ok o ∧ (o.tracker.validate w.scene.source (Handle.ofParts 2 1)).1 = true := by
  have hstart : Reached ⟨{}, [], Tracker.ofSettings {} {}, {}, 0⟩ :=
    .empty _ _ rfl (by decide +kernel) rfl
  have hdone : ((run ⟨{}, [], Tracker.ofSettings {} {}, {}, 0⟩ earlyMove).toOption.any fun w =>
      decide (w.created < 2 ^ 32 ∧ w.tracker.settings.validateLive = true ∧
        (w.tracker.validate w.scene.source (Handle.ofParts 2 1)).1 = false ∧
        w.scene.contains (Handle.ofParts 2 1) = true)) = true := by
    decide +kernel
  cases hrun : run ⟨{}, [], Tracker.ofSettings {} {}, {}, 0⟩ earlyMove with
  | error e =>
      rw [hrun] at hdone
      exact absurd hdone Bool.false_ne_true
  | ok w =>
      rw [hrun] at hdone
      rcases of_decide_eq_true hdone with ⟨hn, hlive, hfailed, hmoved⟩
      have hw := hstart.run _ w earlyMove hrun hn
      rcases (Reached.validates w hw hlive (Handle.ofParts 2 1)).2.2 hfailed 9 with
        ⟨o, ho, hvalid, _⟩
      exact ⟨w, hw, hlive, hfailed, o, ho, hvalid.mpr hmoved⟩

end World

end TreeWatch
