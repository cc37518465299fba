import TreeWatch.Proofs.Accounts

/-!
# Tasks Settle Disagreements

A task that is done takes the disagreements with it that it accounted for, and
makes none that the tasks behind it do not account for. A node that enters
comes with all that lies below it by now, so what the scene moved there in the
meantime is taken from where it was, and what it held there is taken out with
it. The latter is still in the scene, below another parent, and the task that
tells of this move is queued. A node that leaves or moves takes out what the
record still shows below it, with the same excuse.

## Theorems

* `Scene.Accounts.readmit`: A node that moved is cut off and may be treated as
  one that enters.
* `Scene.Accounts.planted`: What is put in with an entering node.
* `Scene.Accounts.entered`, `Scene.Accounts.left`, `Scene.Accounts.moved`: The
  three notifications.
* `Scene.Accounts.handled`: All tasks together.
-/

namespace TreeWatch

open Forest (Under under_iff_up)

namespace Scene

namespace Accounts

variable (s : Scene) (n : Nat) (hs : s.Sound n) (t t' : Store) (ht : t.Sound) (node : Handle)
  (task : Task) (queue : List Task)

section Leaving

include ht

/-- The first task may go away if it does not concern what is tracked, and if
    the node it may have brought in is dead, tracked or comes with its
    parent. -/
theorem skip (h : s.Accounts t (task :: queue)) (htr : s.Trails t (task :: queue))
    (hleft : ∀ x, t.contains x = true → task ≠ .left x)
    (hmoved : ∀ x, t.contains x = true → task = .reparented x → s.parent x = t.parent x)
    (hnew : ∀ x, s.contains x = true → t.contains x = false →
      task = .entered x ∨ task = .reparented x → s.Awaited t queue x) : s.Accounts t queue := by
  refine h.cut s t t _ queue htr _ (Store.Cuts.refl t ht)
    (fun x hxt => ⟨fun hm => ?_, fun hm => ?_⟩) (fun x hx hxt hm => ?_)
    (h.gives_way.tail _ _ task queue fun r hr => ?_)
  · exact List.mem_of_ne_of_mem (hleft x hxt).symm hm
  · rcases List.mem_cons.mp hm with he | hm
    · exact Or.inr (hmoved x hxt he.symm)
    · exact Or.inl hm
  · rcases hm with hm | hm | ⟨p, _, hg, _⟩
    · rcases List.mem_cons.mp hm with he | hm
      · exact hnew x hx hxt (Or.inl he.symm)
      · exact Or.inr (Or.inl hm)
    · rcases List.mem_cons.mp hm with he | hm
      · exact hnew x hx hxt (Or.inr he.symm)
      · exact Or.inr (Or.inr hm)
    · exact hg.elim
  · exact hleft r ((t.contains_iff r).mpr (Or.inl hr))

omit ht in
/-- A node that moved is cut off, if it is tracked, and may be treated as one
    that enters. -/
theorem readmit (h : s.Accounts t (.reparented node :: queue))
    (htr : s.Trails t (.reparented node :: queue)) (gone : Handle → Prop)
    (hcut : t.Cuts t' gone) (hnode : t'.contains node = false)
    (htop : ∀ x p, t.parent x = some p → gone x → ¬ gone p → x = node) :
    s.Accounts t' (.entered node :: queue) := by
  have hmoved : ∀ x, Task.reparented x ∈ Task.reparented node :: queue → x = node ∨
      Task.reparented x ∈ queue := by
    intro x hm
    rw [List.mem_cons, Task.reparented.injEq] at hm
    exact hm
  refine h.cut s t t' _ _ htr gone hcut (fun x hxt => ⟨fun hm => ?_, fun hm => Or.inl ?_⟩)
    (fun x hx hxt hm => ?_) ?_
  · exact List.mem_cons_of_mem _ (List.mem_of_ne_of_mem Task.noConfusion hm)
  · rcases hmoved x hm with rfl | hm
    · rw [hnode] at hxt
      exact absurd hxt Bool.false_ne_true
    · exact List.mem_cons_of_mem _ hm
  · rcases hm with hm | hm | ⟨p, hp, hg, hgp⟩
    · exact Or.inr (Or.inl (List.mem_cons_of_mem _ (List.mem_of_ne_of_mem Task.noConfusion hm)))
    · rcases hmoved x hm with rfl | hm
      · exact Or.inr (Or.inl List.mem_cons_self)
      · exact Or.inr (Or.inr (List.mem_cons_of_mem _ hm))
    · exact Or.inr (Or.inl (htop x p hp hg hgp ▸ List.mem_cons_self))
  · refine (h.gives_way.tail _ _ _ queue fun r hr => Task.noConfusion).cons _ _ _ queue
      fun r hr => ?_
    -- The root never moves, so it is not brought in here.
    intro he
    rw [Task.entered.injEq] at he
    exact htr.root_unmoved r hr (he ▸ List.mem_cons_self)

omit ht in
-- What is cut off below a node has this node as its top.
theorem top_of_cut (x p : Handle) (hp : t.parent x = some p) (hg : Under t.parent x node)
    (hgp : ¬ Under t.parent p node) : x = node := by
  rcases (under_iff_up x node).mp hg with he | ⟨q, hq, hqn⟩
  · exact he
  · rw [hp, Option.some.injEq] at hq
    exact absurd (hq ▸ hqn) hgp

end Leaving

section Handling

include hs

/-- What is put in with an entering node settles what was waiting for it. What
    made room is either below the entering node in the scene, and was put in
    with it, or it was moved and the task that tells of this is queued. -/
theorem planted (h : s.Accounts t (.entered node :: queue))
    (htr : s.Trails t (.entered node :: queue)) (parent top : Handle) (m : Store)
    (hnode : t.contains node = false) (hlive : s.contains node = true)
    (hclimb : PointEdit.climb t s.source node (PointEdit.maxChain - 1) node = .under parent top)
    (hcut : t.Cuts m (Step.Evicted t ((s.source.subtree top).descendants top)))
    (hpl : Store.Planted (s.source.subtree top) parent m [top] t') : s.Accounts t' queue := by
  rcases hs.climb_under s n t node parent top hnode hlive hclimb with ⟨htop, hnew, hup, hunder⟩
  rcases hs.subtree_links s n top htop with ⟨hdesc, _⟩
  rcases hs.planted_links s n t htr.root_live parent top m t' htop hnew hup hcut hpl with
    ⟨hcontains, hbelow, hother⟩
  -- A task that is not about an entering node is still queued.
  have hqueued : ∀ x, x ≠ node → Task.entered x ∈ Task.entered node :: queue →
      Task.entered x ∈ queue := fun x hx hm =>
    List.mem_of_ne_of_mem (mt Task.entered.inj hx) hm
  have huntracked : ∀ x, ¬ Under s.parent x top → m.contains x = false →
      t'.contains x = false := by
    intro x hx hxm
    rw [← Bool.not_eq_true, hcontains, hxm]
    simp only [Bool.false_eq_true, hx, or_self, not_false_eq_true]
  refine ⟨fun r hr hdead => ?_, fun x p hp => ?_, fun x hx hxt => ?_, ?_⟩
  · rw [hpl.root, hcut.root] at hr
    exact List.mem_of_ne_of_mem Task.noConfusion (h.root_left r hr hdead)
  · by_cases hu : Under s.parent x top
    · exact Or.inl ((hbelow x hu).symm.trans hp)
    · rw [hother x hu] at hp
      rcases h.linked x p (hcut.links.up_of_up x p hp).1 with hsp | hdead | hm | hm
      · exact Or.inl hsp
      · exact Or.inr (Or.inl hdead)
      · exact Or.inr (Or.inr (Or.inl (List.mem_of_ne_of_mem Task.noConfusion hm)))
      · exact Or.inr (Or.inr (Or.inr (List.mem_of_ne_of_mem Task.noConfusion hm)))
  · have hboth : ¬ m.contains x = true ∧ ¬ Under s.parent x top := by
      rw [← not_or, ← hcontains, hxt]
      exact Bool.false_ne_true
    rcases hboth with ⟨hxm, hu⟩
    rw [Bool.not_eq_true] at hxm
    have hne : x ≠ node := fun he => hu (he ▸ hunder)
    -- Its parent is not below the entering node, or it would be there too.
    have hparent : ∀ p, s.parent x = some p → m.contains p = false →
        s.Awaited t' queue x := fun p hp hpm =>
      Or.inl ⟨p, hp, huntracked p (fun hpu => hu ((Under.of_up hp).trans hpu)) hpm⟩
    cases hxold : t.contains x with
    | false =>
        rcases h.awaited x hx hxold with ⟨p, hp, hpt⟩ | hm | hm
        · exact hparent p hp ((hcut.not_contains_iff p).mpr (Or.inl hpt))
        · exact Or.inr (Or.inl (hqueued x hne hm))
        · exact Or.inr (Or.inr (List.mem_of_ne_of_mem Task.noConfusion hm))
    | true =>
        -- It went away with a node that is below the entering one now.
        rcases ((hcut.not_contains_iff x).mp hxm).resolve_left (by
          rw [hxold]
          exact Ne.symm Bool.false_ne_true) with ⟨d, hd, hdp, hxd⟩
        rcases (under_iff_up x d).mp hxd with rfl | ⟨p, hp, hpd⟩
        · exact absurd ((hdesc x).mp hd).2 hu
        · rcases h.linked_of_live s t _ htr x p hx hp with hsp | hm
          · exact hparent p hsp ((hcut.not_contains_iff p).mpr (Or.inr ⟨d, hd, hdp, hpd⟩))
          · exact Or.inr (Or.inr (List.mem_of_ne_of_mem Task.noConfusion hm))
  · rw [hpl.root, hcut.root]
    exact h.gives_way.tail _ _ _ queue fun r hr => Task.noConfusion

include ht

/-- A node that enters settles what the task for it accounted for. -/
theorem entered (h : s.Accounts t (.entered node :: queue))
    (htr : s.Trails t (.entered node :: queue))
    (henters : PointEdit.Enters s.source node t t' false) : s.Accounts t' queue := by
  have hskip : (s.contains node = true → t.contains node = false → s.Awaited t queue node) →
      s.Accounts t queue := by
    intro hnew
    refine h.skip s t ht _ queue htr (fun _ _ => Task.noConfusion)
      (fun _ _ he => Task.noConfusion he) fun x hx hxt he => ?_
    rcases he with he | he
    · rw [Task.entered.injEq] at he
      subst he
      exact hnew hx hxt
    · exact Task.noConfusion he
  -- What is stale or stray is passed over, what is put in was just dealt with.
  cases henters with
  | stale hstale =>
      refine hskip fun hx hxt => ?_
      rcases hstale with hc | hdead
      · rw [hxt] at hc
        exact absurd hc Bool.false_ne_true
      · exact absurd (hx.symm.trans hdead) (Ne.symm Bool.false_ne_true)
  | stray top hnode hlive hclimb hother =>
      refine hskip fun _ _ => ?_
      rcases PointEdit.climb_rootless t s.source node _ node top hclimb with
        ⟨htop, _, rfl | ⟨p, hp, hpt⟩⟩
      · -- The node is the root of the scene, and the other root is gone by now.
        have hroot : s.root = some node := by
          rcases (hs.live node).mp hlive with hr | ⟨p, hp⟩
          · exact hr
          · exact absurd (htop.symm.trans hp) (by simp only [reduceCtorEq, not_false_eq_true])
        cases hold : t.root with
        | none => exact absurd hroot (hother.resolve_left fun hne => hne hold)
        | some r =>
            rcases h.gives_way node r [] queue hroot hold rfl with rfl | hm
            · rw [(t.contains_iff r).mpr (Or.inl hold)] at hnode
              exact absurd hnode.symm Bool.false_ne_true
            · exact absurd hm List.not_mem_nil
      · exact Or.inl ⟨p, hp, hpt⟩
  | adopted top t' hempty hroot hfilled =>
      exact of_mirrored s n hs t' queue (hs.mirrored_of_filled s n top t' hroot hfilled)
  | barren parent top hnode hlive hclimb hdead =>
      have htop := (hs.climb_under s n t node parent top hnode hlive hclimb).1
      exact absurd (htop.symm.trans hdead) (Ne.symm Bool.false_ne_true)
  | planted parent top m t' hclimb hnode hlive hcut hparent hpl =>
      exact h.planted s n hs t t' node queue htr parent top m hnode hlive hclimb hcut hpl

/-- A dead node that is taken out settles what the task for it accounted for. -/
theorem left (htask : task = .left node ∨ task = .reparented node)
    (hdead : s.contains node = false) (h : s.Accounts t (task :: queue))
    (htr : s.Trails t (task :: queue)) (hleaves : PointEdit.Leaves node t t') :
    s.Accounts t' queue := by
  -- The task concerns no other node, and a live node is another one.
  have hdiff : ∀ x, x ≠ node → task ≠ .left x ∧ task ≠ .reparented x := by
    intro x hx
    rcases htask with rfl | rfl
    · exact ⟨fun he => hx (Task.left.inj he).symm, Task.noConfusion⟩
    · exact ⟨Task.noConfusion, fun he => hx (Task.reparented.inj he).symm⟩
  have hdiff' : ∀ x, task ≠ .entered x := by
    intro x
    rcases htask with rfl | rfl <;> exact Task.noConfusion
  have halive : ∀ x, s.contains x = true → x ≠ node := by
    rintro x hx rfl
    rw [hdead] at hx
    exact Bool.false_ne_true hx
  cases hleaves with
  | untracked hnode =>
      have hne : ∀ x, t.contains x = true → x ≠ node := by
        rintro x hx rfl
        rw [hnode] at hx
        exact Bool.false_ne_true hx
      refine h.skip s t ht task queue htr (fun x hx => (hdiff x (hne x hx)).1)
        (fun x hx he => absurd he (hdiff x (hne x hx)).2) fun x hx _ he => ?_
      rcases he with he | he
      · exact absurd he (hdiff' x)
      · exact absurd he (hdiff x (halive x hx)).2
  | root hroot =>
      -- Nothing is tracked any more, and the root of the scene still has its task.
      have hempty : ∀ x, Store.empty.contains x = false := by
        intro x
        rw [Store.not_contains_iff]
        exact ⟨(Option.some_ne_none x).symm, Store.parent_ofRoot none x⟩
      refine ⟨fun r hr => absurd hr (Option.some_ne_none r).symm, fun x p hp => ?_,
        fun x hx _ => ?_, fun r r' before after _ hr' => absurd hr' (Option.some_ne_none r').symm⟩
      · exact absurd ((Store.parent_ofRoot none x).symm.trans hp) (Option.some_ne_none p).symm
      · rcases (hs.live x).mp hx with hr | ⟨p, hp⟩
        · have hxt : t.contains x = false := by
            rw [Store.not_contains_iff]
            refine ⟨fun he => halive x hx ?_, htr.root_top x hr⟩
            rw [hroot, Option.some.injEq] at he
            exact he.symm
          rcases h.awaited x hx hxt with ⟨p, hp, _⟩ | hm | hm
          · exact absurd ((hs.tree.root_up x hr).symm.trans hp) (Option.some_ne_none p).symm
          · exact Or.inr (Or.inl (List.mem_of_ne_of_mem (hdiff' x).symm hm))
          · exact absurd hm (htr.root_unmoved x hr)
        · exact Or.inl ⟨p, hp, hempty p⟩
  | cut t' hne hcut =>
      have htail : ∀ x, x ≠ node →
          (Task.left x ∈ task :: queue → Task.left x ∈ queue) ∧
          (Task.reparented x ∈ task :: queue → Task.reparented x ∈ queue) := fun x hx =>
        ⟨List.mem_of_ne_of_mem (hdiff x hx).1.symm, List.mem_of_ne_of_mem (hdiff x hx).2.symm⟩
      have hstays : ∀ x, t'.contains x = true → x ≠ node := by
        rintro x hx rfl
        exact ((hcut.contains_iff x).mp hx).2 (Under.refl x)
      refine h.cut s t t' _ queue htr _ hcut (fun x hx => ?_) (fun x hx _ hm => ?_)
        (h.gives_way.tail _ _ task queue fun r hr => ?_)
      · exact ⟨(htail x (hstays x hx)).1, fun hm => Or.inl ((htail x (hstays x hx)).2 hm)⟩
      · rcases hm with hm | hm | ⟨p, hp, hg, hgp⟩
        · exact Or.inr (Or.inl (List.mem_of_ne_of_mem (hdiff' x).symm hm))
        · exact Or.inr (Or.inr ((htail x (halive x hx)).2 hm))
        · exact absurd (top_of_cut t node x p hp hg hgp) (halive x hx)
      · refine (hdiff r ?_).1
        rintro rfl
        exact hne hr

/-- A node that moves settles what the task for it accounted for. -/
theorem moved (h : s.Accounts t (.reparented node :: queue))
    (htr : s.Trails t (.reparented node :: queue))
    (hmoves : PointEdit.Moves s.source node t t' false) : s.Accounts t' queue := by
  cases hmoves with
  | entered t' asks hnode henters =>
      have hback := h.readmit s t t node queue htr _ (Store.Cuts.refl t ht) hnode
        fun _ _ _ hg _ => hg.elim
      exact hback.entered s n hs t t' ht node queue (htr.readmit s t queue node) henters
  | left t' hdead hleaves =>
      exact h.left s n hs t t' ht node _ queue (Or.inr rfl) hdead htr hleaves
  | unmoved hnode hsame =>
      refine h.skip s t ht _ queue htr (fun _ _ => Task.noConfusion) (fun x _ he => ?_)
        fun x _ hxt he => ?_
      · rw [Task.reparented.injEq] at he
        exact he ▸ hsame
      · rcases he with he | he
        · exact Task.noConfusion he
        · rw [Task.reparented.injEq] at he
          rw [← he, hnode] at hxt
          exact absurd hxt.symm Bool.false_ne_true
  | moved m t' asks hlive hroot hcut henters =>
      have hnode := (hcut.not_contains_iff node).mpr (Or.inr (Under.refl node))
      -- It is cut off and then enters as if it were new.
      have hback := h.readmit s t m node queue htr _ hcut hnode (top_of_cut t node)
      have htrail := (htr.readmit s t queue node).blend s n t m _ hs
        ((Blends.refl s m).of_cut s t m m _ hcut)
      exact hback.entered s n hs m t' hcut.sound node queue htrail henters

/-- A task that asks for no pass settles what it accounted for. -/
theorem handled (h : s.Accounts t (task :: queue)) (htr : s.Trails t (task :: queue))
    (hhandled : Handled s.source t task t' false) : s.Accounts t' queue := by
  cases hhandled with
  | entered node t' asks henters => exact h.entered s n hs t t' ht node queue htr henters
  | left node t' hleaves =>
      exact h.left s n hs t t' ht node _ queue (Or.inl rfl) (htr.left_dead node List.mem_cons_self)
        htr hleaves
  | reparented node t' asks hmoves => exact h.moved s n hs t t' ht node queue htr hmoves
  | attributes node kinds =>
      refine h.skip s t ht _ queue htr (fun _ _ => Task.noConfusion)
        (fun _ _ he => Task.noConfusion he) fun x _ _ he => ?_
      rcases he with he | he <;> exact Task.noConfusion he

end Handling

end Accounts

end Scene

end TreeWatch
