import TreeWatch.Proofs.Trails

/-!
# Disagreements Are on Their Way

Between a change of a scene and the task that tells of it the record and the
scene disagree. The invariant here links every disagreement to a task that is
still queued: a tracked link that the scene does not have, to a task that
takes the node out or moves it; a live node that is not tracked, to a task
that brings it in, or to its parent, with which it comes.

The order of the queue matters in one place. When the root of a scene is
replaced, the new root can only be taken over once the old one has left, so
the task for the old root must come first.

All of this holds as long as no pass is due. A task that cannot be done asks
for a pass, and the pass makes up for what is lost then.

## Main definitions

* `Scene.Awaited`: An untracked node will come with its parent or by a task.
* `Scene.GivesWay`: An old root leaves before the new one enters.
* `Scene.Accounts`: Every disagreement is linked to a queued task.

## Theorems

* `Scene.Accounts.change`: The scene may change.
* `Scene.Accounts.cut`: The record may lose subtrees that no task is needed
  for.
* `Scene.Accounts.settled`: Without tasks there is no disagreement.
-/

namespace TreeWatch

open Forest (Under under_iff_up)

namespace Scene

/-- The node comes with its parent, which is not tracked either, or a task
    brings it in. -/
def Awaited (s : Scene) (t : Store) (queue : List Task) (h : Handle) : Prop :=
  (∃ p, s.parent h = some p ∧ t.contains p = false) ∨ Task.entered h ∈ queue ∨
    Task.reparented h ∈ queue

/-- If `root` is to enter and the record has another root, the task that takes
    the other one out comes first. -/
def GivesWay (root old : Option Handle) (queue : List Task) : Prop :=
  ∀ r r' before after, root = some r → old = some r' → queue = before ++ Task.entered r :: after →
    r' = r ∨ Task.left r' ∈ before

/-- Every disagreement between the record and the scene is linked to a queued
    task. -/
structure Accounts (s : Scene) (t : Store) (queue : List Task) : Prop where
  root_left : ∀ r, t.root = some r → s.contains r = false → Task.left r ∈ queue
  linked : ∀ h p, t.parent h = some p →
    s.parent h = some p ∨ (s.contains h = false ∧ s.contains p = false) ∨
      Task.left h ∈ queue ∨ Task.reparented h ∈ queue
  awaited : ∀ h, s.contains h = true → t.contains h = false → s.Awaited t queue h
  gives_way : GivesWay s.root t.root queue

namespace GivesWay

variable (root old : Option Handle) (task : Task) (queue posts : List Task)

-- Tasks in front of the queue do no harm unless they bring in the root.
theorem cons (h : GivesWay root old queue) (htask : ∀ r, root = some r → task ≠ .entered r) :
    GivesWay root old (task :: queue) := by
  intro r r' before after hr hr' hq
  cases before with
  | nil =>
      rw [List.nil_append, List.cons.injEq] at hq
      exact absurd hq.1 (htask r hr)
  | cons first before =>
      rw [List.cons_append, List.cons.injEq] at hq
      exact (h r r' before after hr hr' hq.2).imp_right (List.mem_cons_of_mem first)

-- The first task may go away unless it takes out the root of the record.
theorem tail (h : GivesWay root old (task :: queue)) (htask : ∀ r, old = some r → task ≠ .left r) :
    GivesWay root old queue := by
  intro r r' before after hr hr' hq
  refine (h r r' (task :: before) after hr hr' (congrArg (task :: ·) hq)).imp_right fun hm => ?_
  exact List.mem_of_ne_of_mem (htask r' hr').symm hm

-- Tasks at the end that do not bring in the root come after all that matters.
theorem append (h : GivesWay root old queue)
    (hposts : ∀ r, root = some r → Task.entered r ∉ posts) :
    GivesWay root old (queue ++ posts) := by
  intro r r' before after hr hr' hq
  rcases List.append_eq_append_iff.mp hq with ⟨mid, hbefore, hmid⟩ | ⟨mid, hqueue, hmid⟩
  · refine absurd ?_ (hposts r hr)
    rw [hmid]
    exact List.mem_append_right mid List.mem_cons_self
  · cases mid with
    | nil =>
        refine absurd ?_ (hposts r hr)
        rw [← List.nil_append posts, ← hmid]
        exact List.mem_cons_self
    | cons first mid =>
        rw [List.cons_append, List.cons.injEq] at hmid
        exact h r r' before mid hr hr' (hmid.1 ▸ hqueue)

-- A new root that comes last comes after an old one that is on its way out.
theorem founded (r r' : Handle) (hleft : Task.left r' ∈ queue) (hfresh : Task.entered r ∉ queue) :
    GivesWay (some r) (some r') (queue ++ [.entered r]) := by
  intro x x' before after hx hx' hq
  rw [Option.some.injEq] at hx hx'
  subst hx hx'
  rcases List.append_eq_append_iff.mp hq with ⟨mid, hbefore, hmid⟩ | ⟨mid, hqueue, hmid⟩
  · rw [hbefore]
    exact Or.inr (List.mem_append_left mid hleft)
  · cases mid with
    | nil =>
        rw [List.append_nil] at hqueue
        exact Or.inr (hqueue ▸ hleft)
    | cons first mid =>
        rw [List.cons_append, List.cons.injEq] at hmid
        refine absurd ?_ hfresh
        rw [hqueue, ← hmid.1]
        exact List.mem_append_right before List.mem_cons_self

end GivesWay

namespace Accounts

section Changes

variable (s s' : Scene) (n : Nat) (t : Store) (queue posts : List Task)

/-- After a change the old root still leaves before a new one enters. -/
theorem gives_way_change (h : s.Accounts t queue) (htr : s.Trails t queue) (hs : s.Sound n)
    (hc : Change s s' posts) : GivesWay s'.root t.root (queue ++ posts) := by
  intro r r' before after hr hr' hq
  rcases hc.root_cases s s' posts r hr with hold | ⟨hfresh, hnone, rfl⟩
  · -- The root was there before, so the change does not bring it in.
    refine (h.gives_way.append s.root t.root queue posts fun x hx hm => ?_) r r' before after hold
      hr' hq
    exact (hc.posts_spec s s' n hs posts _ hm).2.2.2.2 x rfl
      (s.issued_of_contains x ((hs.live x).mpr (Or.inl hx)))
  · have hdead : s.contains r' = false := by
      rw [← Bool.not_eq_true, hs.live]
      intro hheld
      rcases hs.tree.held_under_root r' hheld with ⟨top, htop, _⟩
      rw [hnone] at htop
      exact absurd htop (by simp only [reduceCtorEq, not_false_eq_true])
    exact GivesWay.founded queue r r' (h.root_left r' hr' hdead)
      (fun hm => hfresh (htr.named (.entered r) hm r rfl)) r r' before after rfl rfl hq

/-- A scene may change and tell of it. -/
theorem change (h : s.Accounts t queue) (htr : s.Trails t queue) (hs : s.Sound n) (ht : t.Sound)
    (hc : Change s s' posts) : s'.Accounts t (queue ++ posts) := by
  have hold : ∀ task, task ∈ queue → task ∈ queue ++ posts := fun task =>
    List.mem_append_left posts
  have hnew : ∀ task, task ∈ posts → task ∈ queue ++ posts := fun task =>
    List.mem_append_right queue
  have hdead : ∀ x, t.contains x = true → s.contains x = false → s'.contains x = false :=
    fun x hxt hx => hc.dead_stays s s' posts x hx (htr.tracked x hxt)
  refine ⟨fun r hr hrd => ?_, fun x p hp => ?_, fun x hx hxt => ?_,
    h.gives_way_change s s' n t queue posts htr hs hc⟩
  · cases hl : s.contains r with
    | true =>
        have hsr := htr.root_live r hr hl
        exact hnew _ (hc.root_dies s s' posts r (hs.tree.root_up r hsr) hl hrd)
    | false => exact hold _ (h.root_left r hr hl)
  · have hxt : t.contains x = true := (t.contains_iff x).mpr (Or.inr ⟨p, hp⟩)
    have hpt : t.contains p = true := (t.contains_iff_held p).mpr (ht.tree.held_up x p hp)
    rcases h.linked x p hp with hsp | ⟨hxd, hpd⟩ | hm | hm
    · rcases hc.link_cases s s' posts x p hsp (htr.tracked x hxt) with hup | hgone | hm | hm
      · exact Or.inl hup
      · exact Or.inr (Or.inl hgone)
      · exact Or.inr (Or.inr (Or.inl (hnew _ hm)))
      · exact Or.inr (Or.inr (Or.inr (hnew _ hm)))
    · exact Or.inr (Or.inl ⟨hdead x hxt hxd, hdead p hpt hpd⟩)
    · exact Or.inr (Or.inr (Or.inl (hold _ hm)))
    · exact Or.inr (Or.inr (Or.inr (hold _ hm)))
  · rcases hc.live_cases s s' posts x hx with ⟨hl, hup⟩ | hm | hm
    · rcases h.awaited x hl hxt with ⟨p, hp, hpt⟩ | hm | hm
      · exact Or.inl ⟨p, hup.trans hp, hpt⟩
      · exact Or.inr (Or.inl (hold _ hm))
      · exact Or.inr (Or.inr (hold _ hm))
    · exact Or.inr (Or.inl (hnew _ hm))
    · exact Or.inr (Or.inr (hnew _ hm))

end Changes

section Records

variable (s : Scene) (n : Nat) (hs : s.Sound n) (t t' : Store) (queue queue' : List Task)

include hs

omit hs in
-- The links of live nodes are links of the scene or about to change.
theorem linked_of_live (h : s.Accounts t queue) (htr : s.Trails t queue) (x p : Handle)
    (hx : s.contains x = true) (hp : t.parent x = some p) :
    s.parent x = some p ∨ Task.reparented x ∈ queue := by
  rcases h.linked x p hp with hsp | ⟨hdead, _⟩ | hm | hm
  · exact Or.inl hsp
  · rw [hx] at hdead
    exact absurd hdead.symm Bool.false_ne_true
  · rw [htr.left_dead x hm] at hx
    exact absurd hx Bool.false_ne_true
  · exact Or.inr hm

omit hs in
/-- The record may lose subtrees while tasks come and go. The tasks that are
    still needed must stay, and what is not tracked and was waiting for a task,
    or was cut off at its top, must be awaited. -/
theorem cut (h : s.Accounts t queue) (htr : s.Trails t queue) (gone : Handle → Prop)
    (hcut : t.Cuts t' gone)
    (hkeep : ∀ x, t'.contains x = true → (Task.left x ∈ queue → Task.left x ∈ queue') ∧
      (Task.reparented x ∈ queue → Task.reparented x ∈ queue' ∨ s.parent x = t.parent x))
    (hwait : ∀ x, s.contains x = true → t'.contains x = false →
      Task.entered x ∈ queue ∨ Task.reparented x ∈ queue ∨
        (∃ p, t.parent x = some p ∧ gone x ∧ ¬ gone p) → s.Awaited t' queue' x)
    (hway : GivesWay s.root t.root queue') : s.Accounts t' queue' := by
  refine ⟨fun r hr hrd => ?_, fun x p hp => ?_, fun x hx hxt => ?_, hcut.root ▸ hway⟩
  · have hrt : t'.contains r = true := (t'.contains_iff r).mpr (Or.inl hr)
    exact (hkeep r hrt).1 (h.root_left r (hcut.root ▸ hr) hrd)
  · have hxt : t'.contains x = true := (t'.contains_iff x).mpr (Or.inr ⟨p, hp⟩)
    rcases hcut.links.up_of_up x p hp with ⟨htp, _⟩
    rcases h.linked x p htp with hsp | hdead | hm | hm
    · exact Or.inl hsp
    · exact Or.inr (Or.inl hdead)
    · exact Or.inr (Or.inr (Or.inl ((hkeep x hxt).1 hm)))
    · rcases (hkeep x hxt).2 hm with hm' | he
      · exact Or.inr (Or.inr (Or.inr hm'))
      · exact Or.inl (he.trans htp)
  · -- Either it was untracked before, or it is in a subtree that was cut off.
    cases hxold : t.contains x with
    | false =>
        rcases h.awaited x hx hxold with ⟨p, hp, hpt⟩ | hm | hm
        · exact Or.inl ⟨p, hp, (hcut.not_contains_iff p).mpr (Or.inl hpt)⟩
        · exact hwait x hx hxt (Or.inl hm)
        · exact hwait x hx hxt (Or.inr (Or.inl hm))
    | true =>
        have hg : gone x := ((hcut.not_contains_iff x).mp hxt).resolve_left (by
          rw [hxold]
          exact Ne.symm Bool.false_ne_true)
        rcases (t.contains_iff x).mp hxold with hr | ⟨p, hp⟩
        · exact absurd hg (hcut.root_stays x hr)
        · by_cases hgp : gone p
          · -- Inside a subtree that was cut off: the parent went along.
            rcases h.linked_of_live s t queue htr x p hx hp with hsp | hm
            · exact Or.inl ⟨p, hsp, (hcut.not_contains_iff p).mpr (Or.inr hgp)⟩
            · exact hwait x hx hxt (Or.inr (Or.inl hm))
          · exact hwait x hx hxt (Or.inr (Or.inr ⟨p, hp, hg, hgp⟩))

/-- There is no disagreement to account for with a record that mirrors the
    scene. -/
theorem of_mirrored (h : s.Mirrored t) : s.Accounts t queue := by
  refine ⟨fun r hr hdead => ?_, fun x p hp => Or.inl ((h.up x).symm.trans hp),
    fun x hx hxt => ?_, fun r r' before after hr hr' _ => ?_⟩
  · rw [(hs.live r).mpr (Or.inl (h.root ▸ hr))] at hdead
    exact absurd hdead.symm Bool.false_ne_true
  · rw [← Bool.not_eq_true, t.contains_iff_held, Forest.Held, h.root, h.up] at hxt
    exact absurd ((hs.live x).mp hx) hxt
  · rw [h.root, hr, Option.some.injEq] at hr'
    exact Or.inl hr'.symm

/-- Without tasks there is no disagreement left. Going down from the root, every
    tracked node is live, and every live node is tracked. -/
theorem settled (h : s.Accounts t []) (htr : s.Trails t []) (ht : t.Sound) : s.Mirrored t := by
  have hlive : ∀ x, Forest.Held t.root t.parent x → s.contains x = true := by
    refine ht.tree.path_induction (fun r hr => ?_) fun x p hp hpl => ?_
    · by_contra hdead
      rw [Bool.not_eq_true] at hdead
      exact List.not_mem_nil (h.root_left r hr hdead)
    · rcases h.linked x p hp with hsp | ⟨_, hpd⟩ | hm | hm
      · exact (hs.live x).mpr (Or.inr ⟨p, hsp⟩)
      · rw [hpl] at hpd
        exact absurd hpd.symm Bool.false_ne_true
      · exact absurd hm List.not_mem_nil
      · exact absurd hm List.not_mem_nil
  have htracked : ∀ x, Forest.Held s.root s.parent x → t.contains x = true := by
    refine hs.tree.path_induction (fun r hr => ?_) fun x p hp hpt => ?_
    · by_contra hrt
      rw [Bool.not_eq_true] at hrt
      rcases h.awaited r ((hs.live r).mpr (Or.inl hr)) hrt with ⟨p, hp, _⟩ | hm | hm
      · exact absurd hr (hs.tree.root_ne r p hp)
      · exact absurd hm List.not_mem_nil
      · exact absurd hm List.not_mem_nil
    · by_contra hxt
      rw [Bool.not_eq_true] at hxt
      rcases h.awaited x ((hs.live x).mpr (Or.inr ⟨p, hp⟩)) hxt with ⟨q, hq, hqt⟩ | hm | hm
      · rw [hp, Option.some.injEq] at hq
        rw [← hq, hpt] at hqt
        exact absurd hqt.symm Bool.false_ne_true
      · exact absurd hm List.not_mem_nil
      · exact absurd hm List.not_mem_nil
  -- A tracked link is a link of the scene, since its lower end is live.
  have hlink : ∀ x p, t.parent x = some p → s.parent x = some p := by
    intro x p hp
    rcases h.linked_of_live s t [] htr x p (hlive x (Or.inr ⟨p, hp⟩)) hp with hsp | hm
    · exact hsp
    · exact absurd hm List.not_mem_nil
  have hroot : ∀ r, t.root = some r → s.root = some r := fun r hr =>
    htr.root_live r hr (hlive r (Or.inl hr))
  refine ⟨?_, fun x => ?_⟩
  · cases hr : t.root with
    | some r => exact (hroot r hr).symm
    | none =>
        cases hsr : s.root with
        | none => rfl
        | some r =>
            rcases ht.tree.held_under_root r
              ((t.contains_iff_held r).mp (htracked r (Or.inl hsr))) with ⟨r', hr', _⟩
            rw [hr] at hr'
            exact absurd hr' (by simp only [reduceCtorEq, not_false_eq_true])
  · cases hp : s.parent x with
    | none =>
        cases htp : t.parent x with
        | none => rfl
        | some p => exact (hlink x p htp).symm.trans hp
    | some p =>
        rcases (t.contains_iff x).mp (htracked x (Or.inr ⟨p, hp⟩)) with hr | ⟨q, hq⟩
        · exact absurd (hroot x hr) (hs.tree.root_ne x p hp)
        · exact hq.trans ((hlink x q hq).symm.trans hp)

end Records

end Accounts

end Scene

end TreeWatch
