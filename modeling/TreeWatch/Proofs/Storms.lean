import TreeWatch.Proofs.Answers
import TreeWatch.Scene.Storm

/-!
# Storms Are Sequences of Mutations

An operation of a storm picks its nodes by position and changes nothing if the
scene refuses. Whatever it does, it does by mutations of the scene, so a frame
and the regular scene of the beginning are sequences of mutations, and what
holds of each mutation holds of them. How many nodes a frame creates is not
known before it is applied, since a creation may be refused or left out. It is
read off the feed afterwards.

The same frames and the same regular scene can be made with operations and
mutations that stop at a fault. As all of it is done one mutation after the other,
none of them stops as long as the last scene is the work of less than `2 ^ 32`
creations.

## Main definitions

* `Scene.Leads`: One scene comes out of another by mutations.
* `Storm.Guarded.applyFrame`, `Scene.Guarded.populate`: The same with mutations
  that stop.
* `Storm.creations`: How many nodes a sequence of frames creates.

## Theorems

* `Scene.Leads.spec`: What mutations keep.
* `SceneOp.leads_apply`, `Storm.leads_applyFrame`, `Scene.leads_populate`: What
  is done by mutations.
* `Scene.foldlM_guarded`: Steps that go through one by one go through together.
* `Storm.Guarded.applyFrame_eq`, `Scene.Guarded.populate_eq`: No mutation stops.
-/

namespace TreeWatch

namespace Scene

/-- What holds of the record and the scene alone does not depend on the
    tasks. -/
theorem Trails.forget (s : Scene) (t : Store) (queue : List Task) (h : s.Trails t queue) :
    s.Trails t [] := by
  have hnil : ∀ task : Task, task ∉ [] := fun _ => List.not_mem_nil
  exact ⟨fun task hq => absurd hq (hnil task), h.tracked, fun task hq => absurd hq (hnil task),
    fun x hq => absurd hq (hnil _), fun r _ => hnil _, h.root_live, h.root_top⟩

/-- The scene `s'` comes out of `s` by mutations. -/
def Leads : Scene → Scene → Prop :=
  Relation.ReflTransGen fun s s' => ∃ c : Call, c.run s = .ok s'

namespace Leads

variable (s s' : Scene)

theorem of_call (c : Call) (hok : c.run s = .ok s') : Leads s s' := .single ⟨c, hok⟩

/-- Mutations that create less than `2 ^ 32` nodes in all lead from one tree to
    another, keep the count of live nodes right, and leave a record that
    trailed the scene trailing it. -/
theorem spec (k : Nat) (h : Leads s s') (hs : s.Sound (k + s.arrivals))
    (hn : k + s'.arrivals < 2 ^ 32) :
    s'.Sound (k + s'.arrivals) ∧ (s.Counted → s'.Counted) ∧
      ∀ t, s.Trails t [] → s'.Trails t [] := by
  induction h with
  | refl => exact ⟨hs, id, fun _ => id⟩
  | @tail m s' _ hc ih =>
      rcases hc with ⟨c, hok⟩
      have htallies := c.tallies m s' hok
      rw [htallies.arrivals, ← Nat.add_assoc] at hn ⊢
      rcases ih (by omega) with ⟨hsound, hcounted, htrails⟩
      rcases hsound.call_spec m _ c s' hn hok with ⟨hsound', hissued, posts, _, hchange⟩
      refine ⟨hsound', fun hc => ?_, fun t ht => ?_⟩
      · exact htallies.counted _ hsound.stored hn (hcounted hc)
      · exact ((htrails t ht).change m s' _ t [] posts hsound hissued hchange).forget s' t _

/-- Mutations never take back what the feed tells. -/
theorem arrivals_le (h : Leads s s') : s.arrivals ≤ s'.arrivals := by
  induction h with
  | refl => exact Nat.le_refl _
  | @tail m s' _ hc ih =>
      rcases hc with ⟨c, hok⟩
      rw [(c.tallies m s' hok).arrivals]
      exact ih.trans (Nat.le_add_right _ _)

/-- Steps that are mutations are so one after the other. -/
theorem foldl {α β : Type} (step : α × Scene → β → α × Scene)
    (hstep : ∀ acc x, Leads acc.2 (step acc x).2) (xs : List β) (acc : α × Scene) :
    Leads acc.2 (xs.foldl step acc).2 := by
  induction xs generalizing acc with
  | nil => exact .refl
  | cons x xs ih => exact (hstep acc x).trans (ih (step acc x))

end Leads

end Scene

namespace SceneOp

open Scene (Leads)

-- A mutation that may be refused, with a result and without one.
theorem leads_made {α : Type} (s : Scene) (c : Scene.Call) (r : Except Scene.Refusal (α × Scene))
    (hr : c.run s = r.map Prod.snd) : Leads s (made s r).2 := by
  cases r with
  | error e => exact .refl
  | ok o => exact Leads.of_call s o.2 c hr

theorem leads_done (s : Scene) (c : Scene.Call) : Leads s (done s (c.run s)).2 := by
  cases hr : c.run s with
  | error e => exact .refl
  | ok s' => exact Leads.of_call s s' c hr

-- A scene is founded again, after what was there went away.
theorem leads_founded (s m : Scene) (h : Leads s m) (r : Except Scene.Refusal (Handle × Scene))
    (hr : m.createRoot "root" Tag.root = r) (out : Bool × Scene)
    (hok : ∀ o, r = .ok o → out.2 = (made o.2 (o.2.create o.1 "content" Tag.item)).2)
    (herror : ∀ e, r = .error e → out.2 = m) : Leads s out.2 := by
  cases r with
  | error e => exact herror e rfl ▸ h
  | ok o =>
      have hcall : (Scene.Call.createRoot "root" Tag.root).run m = .ok o.2 :=
        congrArg (Except.map Prod.snd) hr
      rw [hok o rfl]
      exact (h.trans (Leads.of_call m o.2 _ hcall)).trans
        (leads_made o.2 (.create o.1 "content" Tag.item) _ rfl)

theorem leads_renew (s : Scene) : Leads s (renew s).2 := by
  simp only [renew]
  cases s.root with
  | none =>
      refine leads_founded s s .refl _ rfl _ (fun o ho => ?_) fun e he => ?_
      · simp only [ho]
      · simp only [he]
  | some old =>
      refine leads_founded s _ (leads_made s (.destroy old) _ rfl) _ rfl _ (fun o ho => ?_)
        fun e he => ?_
      · simp only [ho]
      · simp only [he]

/-- An operation is done by mutations. -/
theorem leads_apply (op : SceneOp) (s : Scene) : Leads s (op.apply s).2 := by
  cases op with
  | create parent tag =>
      simp only [apply]
      cases pick s.handles parent with
      | some p => exact leads_made s (.create p _ tag) _ rfl
      | none => exact leads_made s (.createRoot "root" Tag.root) _ rfl
  | destroy target =>
      simp only [apply]
      cases pick s.handles target with
      | none => exact .refl
      | some h =>
          dsimp only
          by_cases hr : s.root = some h
          · rw [if_pos hr]
            exact .refl
          · rw [if_neg hr]
            exact leads_made s (.destroy h) _ rfl
  | reparent target parent =>
      simp only [apply]
      cases pick s.handles target with
      | none => exact .refl
      | some h =>
          cases pick s.handles parent with
          | none => exact .refl
          | some p =>
              dsimp only
              by_cases hp : s.parent h = some p
              · rw [if_pos hp]
                exact .refl
              · rw [if_neg hp]
                exact leads_done s (.reparent h p)
  | raise target =>
      simp only [apply]
      cases pick s.handles target with
      | none => exact .refl
      | some h => exact leads_done s (.raise h)
  | setFlags target flags =>
      simp only [apply]
      cases pick s.handles target with
      | none => exact .refl
      | some h =>
          dsimp only
          cases hset : s.setFlags h flags with
          | error e => exact .refl
          | ok o =>
              exact Leads.of_call s o.2 (.setFlags h flags) (congrArg (Except.map Prod.snd) hset)
  | rename target =>
      simp only [apply]
      cases pick s.handles target with
      | none => exact .refl
      | some h => exact leads_done s (.setLabel h _)
  | replaceRoot => exact leads_renew s

end SceneOp

open Scene (Leads)

namespace Storm

theorem leads_applyOp (maxNodes : Nat) (acc : Nat × Scene) (op : SceneOp) :
    Leads acc.2 (applyOp maxNodes acc op).2 := by
  unfold applyOp
  by_cases hfull : (op.isCreate && maxNodes ≤ acc.2.live) = true
  · rw [if_pos hfull]
    exact .refl
  · rw [if_neg hfull]
    exact op.leads_apply acc.2

/-- A frame is applied by mutations. -/
theorem leads_applyFrame (maxNodes : Nat) (frame : List SceneOp) (s : Scene) :
    Leads s (applyFrame maxNodes frame s).2 :=
  Leads.foldl _ (leads_applyOp maxNodes) frame (0, s)

end Storm

namespace Scene

theorem leads_addPlace (level : Nat) (acc : List Handle × Scene) (place : Handle × Nat) :
    Leads acc.2 (addPlace level acc place).2 := by
  unfold addPlace
  cases hok : acc.2.create place.1 (levelLabel level place.2) (levelTag level) with
  | error e => exact .refl
  | ok o =>
      have hcall := congrArg (Except.map Prod.snd) hok
      exact Leads.of_call acc.2 o.2 (.create place.1 _ _) hcall

theorem leads_addLevel (s : Scene) (breadth level : Nat) (parents : List Handle) :
    Leads s (s.addLevel breadth level parents).2 :=
  Leads.foldl _ (leads_addPlace level) _ ([], s)

theorem leads_addLevels (s : Scene) (breadth depth : Nat) (root : Handle) :
    Leads s (s.addLevels breadth depth root) :=
  Leads.foldl _ (fun acc level => leads_addLevel acc.2 breadth level acc.1) _ ([root], s)

/-- A regular scene is made by mutations. -/
theorem leads_populate (s : Scene) (breadth depth : Nat) : Leads s (s.populate breadth depth) := by
  unfold populate
  cases s.root with
  | some root => exact s.leads_addLevels breadth depth root
  | none =>
      dsimp only
      cases hok : s.createRoot "root" Tag.root with
      | error e => exact .refl
      | ok o =>
          have hcall := congrArg (Except.map Prod.snd) hok
          exact (Leads.of_call s o.2 (.createRoot "root" Tag.root) hcall).trans
            (o.2.leads_addLevels breadth depth o.1)

/-- Steps that go through one by one, in a scene that keeps its books, go through
    together, as long as not too many nodes were created at the end. -/
theorem foldlM_guarded {α β : Type} (guarded : α × Scene → β → Except Fault (α × Scene))
    (step : α × Scene → β → α × Scene) (hstep : ∀ acc x, Leads acc.2 (step acc x).2) (k : Nat)
    (hok : ∀ acc x, acc.2.Sound (k + acc.2.arrivals) → acc.2.Counted →
      k + (step acc x).2.arrivals < 2 ^ 32 → guarded acc x = .ok (step acc x))
    (xs : List β) (acc : α × Scene) (hs : acc.2.Sound (k + acc.2.arrivals)) (hc : acc.2.Counted)
    (hn : k + (xs.foldl step acc).2.arrivals < 2 ^ 32) :
    xs.foldlM guarded acc = .ok (xs.foldl step acc) := by
  induction xs generalizing acc with
  | nil => rfl
  | cons x xs ih =>
      have hle := (Leads.foldl step hstep xs (step acc x)).arrivals_le
      rw [List.foldl_cons] at hn ⊢
      rcases (hstep acc x).spec _ _ k hs (by omega) with ⟨hsound, hcounted, _⟩
      rw [List.foldlM_cons, hok acc x hs hc (by omega)]
      exact ih (step acc x) hsound (hcounted hc) hn

end Scene

namespace Storm.Guarded

/-- Apply an operation that stops, unless it creates a node while the scene is
    full. -/
def applyOp (maxNodes : Nat) (acc : Nat × Scene) (op : SceneOp) : Except Fault (Nat × Scene) :=
  if op.isCreate && maxNodes ≤ acc.2.live then return acc
  else do
    let (changed, s) ← op.guarded acc.2
    return (if changed then acc.1 + 1 else acc.1, s)

/-- Apply a frame with operations that stop. -/
def applyFrame (maxNodes : Nat) (frame : List SceneOp) (s : Scene) : Except Fault (Nat × Scene) :=
  frame.foldlM (applyOp maxNodes) (0, s)

/-- No operation of a frame stops. -/
theorem applyFrame_eq (maxNodes : Nat) (frame : List SceneOp) (s : Scene) (k : Nat)
    (hs : s.Sound (k + s.arrivals)) (hc : s.Counted)
    (hn : k + (Storm.applyFrame maxNodes frame s).2.arrivals < 2 ^ 32) :
    applyFrame maxNodes frame s = .ok (Storm.applyFrame maxNodes frame s) := by
  refine Scene.foldlM_guarded _ _ (leads_applyOp maxNodes) k (fun acc op hs hc hn => ?_) frame
    (0, s) hs hc hn
  have hle := (leads_applyOp maxNodes acc op).arrivals_le
  unfold applyOp Storm.applyOp
  rw [op.guarded_eq acc.2 _ hs hc (by omega)]
  split <;> rfl

end Storm.Guarded

namespace Scene.Guarded

/-- Create the node of a level at a place, and append it to the new nodes. -/
def addPlace (level : Nat) (acc : List Handle × Scene) (place : Handle × Nat) :
    Except Fault (List Handle × Scene) := do
  match ← create acc.2 place.1 (levelLabel level place.2) (levelTag level) with
  | .ok (h, s) => return (acc.1 ++ [h], s)
  | .error _ => return acc

/-- Give each of some nodes `breadth` children. -/
def addLevel (s : Scene) (breadth level : Nat) (parents : List Handle) :
    Except Fault (List Handle × Scene) :=
  (placesUnder breadth parents).foldlM (addPlace level) ([], s)

/-- Give a node `depth` levels of nodes below it. -/
def addLevels (s : Scene) (breadth depth : Nat) (root : Handle) : Except Fault Scene := do
  return (← (List.range depth).foldlM (fun acc level => addLevel acc.2 breadth level acc.1)
    ([root], s)).2

/-- Give the root such levels. A root is created if there is none. -/
def populate (s : Scene) (breadth depth : Nat) : Except Fault Scene := do
  let rooted ← match s.root with
    | some root => pure (.ok (root, s))
    | none => createRoot s "root" Tag.root
  match rooted with
  | .error _ => return s
  | .ok (root, s) => addLevels s breadth depth root

theorem addLevel_eq (s : Scene) (breadth level : Nat) (parents : List Handle) (k : Nat)
    (hs : s.Sound (k + s.arrivals)) (hc : s.Counted)
    (hn : k + (s.addLevel breadth level parents).2.arrivals < 2 ^ 32) :
    addLevel s breadth level parents = .ok (s.addLevel breadth level parents) := by
  refine foldlM_guarded _ _ (leads_addPlace level) k (fun acc place hs hc hn => ?_) _ ([], s)
    hs hc hn
  have hle := (leads_addPlace level acc place).arrivals_le
  have hlive : acc.2.live ≤ 2 ^ 32 := (hc.live_le acc.2).trans (hs.stored.few.trans (by omega))
  unfold addPlace Scene.addPlace
  rw [create_eq acc.2 _ hs.stored hlive]
  cases acc.2.create place.1 (levelLabel level place.2) (levelTag level) <;> rfl

theorem addLevels_eq (s : Scene) (breadth depth : Nat) (root : Handle) (k : Nat)
    (hs : s.Sound (k + s.arrivals)) (hc : s.Counted)
    (hn : k + (s.addLevels breadth depth root).arrivals < 2 ^ 32) :
    addLevels s breadth depth root = .ok (s.addLevels breadth depth root) := by
  unfold addLevels
  rw [foldlM_guarded _ _ (fun acc level => leads_addLevel acc.2 breadth level acc.1) k
    (fun acc level hs hc hn => addLevel_eq acc.2 breadth level acc.1 k hs hc hn) _ ([root], s)
    hs hc hn]
  rfl

/-- No mutation stops while a regular scene is made. -/
theorem populate_eq (s : Scene) (breadth depth : Nat) (k : Nat)
    (hs : s.Sound (k + s.arrivals)) (hc : s.Counted)
    (hn : k + (s.populate breadth depth).arrivals < 2 ^ 32) :
    populate s breadth depth = .ok (s.populate breadth depth) := by
  have hlive : s.live ≤ 2 ^ 32 := by
    have hle := (leads_populate s breadth depth).arrivals_le
    exact (hc.live_le s).trans (hs.stored.few.trans (by omega))
  unfold Scene.populate at hn
  unfold populate Scene.populate
  cases hr : s.root with
  | some root =>
      rw [hr] at hn
      dsimp only at hn ⊢
      rw [pure_bind]
      exact addLevels_eq s breadth depth root k hs hc hn
  | none =>
      rw [hr] at hn
      dsimp only at hn ⊢
      rw [createRoot_eq s _ hs.stored hlive]
      cases hok : s.createRoot "root" Tag.root with
      | error e => rfl
      | ok o =>
          rcases o with ⟨root, m⟩
          rw [hok] at hn
          dsimp only at hn
          have hroot : Leads s m :=
            .of_call s m (.createRoot "root" Tag.root) (congrArg (Except.map Prod.snd) hok)
          have hle := (m.leads_addLevels breadth depth root).arrivals_le
          rcases hroot.spec s m k hs (by omega) with ⟨hsound, hcounted, _⟩
          exact addLevels_eq m breadth depth root k hsound (hcounted hc) hn

end Scene.Guarded

/-- How many nodes a sequence of frames creates in a scene whose feed is taken
    after each frame. -/
def Storm.creations (maxNodes : Nat) : List (List SceneOp) → Scene → Nat
  | [], _ => 0
  | frame :: rest, s =>
    let after := (Storm.applyFrame maxNodes frame s).2
    after.arrivals + creations maxNodes rest after.takeFeed.2

end TreeWatch
