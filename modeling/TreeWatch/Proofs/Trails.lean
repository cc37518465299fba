import TreeWatch.Proofs.Observed

/-!
# Records That Trail a Scene

A scene tells of its changes, and a record is kept along with it from what it
tells. The tasks are done late: the scene has changed again and told of it
before the first task is done. Still, some things hold of the record, of the
scene and of the tasks in between at all times, because a handle is never
handed out twice. A node that is told to have left is dead for good, so the
root of the record is the root of the scene or dead, and a tracked node is one
that the scene had.

## Main definitions

* `Task.Names`: The node that a task tells of.
* `Scene.Trails`: What holds of a record that is kept along with a scene.

## Theorems

* `Scene.Change.posts_spec`: What a change tells.
* `Scene.Trails.change`: The scene may change.
* `Scene.Trails.blend`: The record may take over links of the scene.
-/

namespace TreeWatch

open Forest (Under under_iff_up)

/-- The task tells that `h` entered, left or moved. -/
def Task.Names (h : Handle) : Task → Prop
  | .entered node => node = h
  | .left node => node = h
  | .reparented node => node = h
  | _ => False

namespace Scene

section Changes

variable (s s' : Scene) (n : Nat) (hs : s.Sound n) (posts : List Task)
  (hc : Change s s' posts)

include hc

-- A handle that died never comes back.
theorem Change.dead_stays (x : Handle) (hx : s.contains x = false) (hissued : s.Issued x) :
    s'.contains x = false := by
  rw [← Bool.not_eq_true] at hx ⊢
  intro hx'
  cases hc with
  | founded h hnone hfresh hroot hup hlive =>
      rcases (hlive x).mp hx' with rfl | hx''
      · exact hfresh hissued
      · exact hx hx''
  | joined h p hfresh hp hroot hup hlive =>
      rcases (hlive x).mp hx' with rfl | hx''
      · exact hfresh hissued
      · exact hx hx''
  | died h hh hroot hlinks hlive => exact hx ((hlive x).mp hx').1
  | moved h p q hq hroot hup hlive => exact hx ((hlive x).symm.trans hx')
  | repainted posts hposts hroot hup hlive => exact hx ((hlive x).symm.trans hx')

-- A new root is a new node.
theorem Change.root_cases (r : Handle) (hr : s'.root = some r) :
    s.root = some r ∨ (¬ s.Issued r ∧ s.root = none ∧ posts = [.entered r]) := by
  cases hc with
  | founded h hnone hfresh hroot hup hlive =>
      rw [hroot, Option.some.injEq] at hr
      subst hr
      exact Or.inr ⟨hfresh, hnone, rfl⟩
  | joined h p hfresh hp hroot hup hlive => exact Or.inl (hroot ▸ hr)
  | died h hh hroot hlinks hlive =>
      by_cases he : s.root = some h
      · rw [hroot, if_pos he] at hr
        exact absurd hr (by simp only [reduceCtorEq, not_false_eq_true])
      · rw [hroot, if_neg he] at hr
        exact Or.inl hr
  | moved h p q hq hroot hup hlive => exact Or.inl (hroot ▸ hr)
  | repainted posts hposts hroot hup hlive => exact Or.inl (hroot ▸ hr)

-- The root stays the root as long as it lives.
theorem Change.root_stays (r : Handle) (hr : s.root = some r) (hlive' : s'.contains r = true) :
    s'.root = some r := by
  cases hc with
  | founded h hnone hfresh hroot hup hlive =>
      rw [hnone] at hr
      exact absurd hr (by simp only [reduceCtorEq, not_false_eq_true])
  | joined h p hfresh hp hroot hup hlive => exact hroot.trans hr
  | died h hh hroot hlinks hlive =>
      have hne : s.root ≠ some h := by
        intro he
        rw [hr, Option.some.injEq] at he
        exact ((hlive r).mp hlive').2 (he ▸ Under.refl r)
      rw [hroot, if_neg hne, hr]
  | moved h p q hq hroot hup hlive => exact hroot.trans hr
  | repainted posts hposts hroot hup hlive => exact hroot.trans hr

-- A node without a parent that dies is told to have left.
theorem Change.root_dies (r : Handle) (hrup : s.parent r = none)
    (hl : s.contains r = true) (hdead : s'.contains r = false) : Task.left r ∈ posts := by
  rw [← Bool.not_eq_true] at hdead
  cases hc with
  | founded h hnone hfresh hroot hup hlive => exact absurd ((hlive r).mpr (Or.inr hl)) hdead
  | joined h p hfresh hp hroot hup hlive => exact absurd ((hlive r).mpr (Or.inr hl)) hdead
  | died h hh hroot hlinks hlive =>
      have hu : Under s.parent r h := by
        by_contra hu
        exact hdead ((hlive r).mpr ⟨hl, hu⟩)
      rw [Forest.eq_of_under_top hrup hu]
      exact List.mem_singleton_self _
  | moved h p q hq hroot hup hlive => exact absurd ((hlive r).trans hl) hdead
  | repainted posts hposts hroot hup hlive => exact absurd ((hlive r).trans hl) hdead

/-- A link of the scene stays, goes away with both its ends, or the change tells
    of it. -/
theorem Change.link_cases (x p : Handle) (hp : s.parent x = some p) (hissued : s.Issued x) :
    s'.parent x = some p ∨ (s'.contains x = false ∧ s'.contains p = false) ∨
      Task.left x ∈ posts ∨ Task.reparented x ∈ posts := by
  cases hc with
  | founded h hnone hfresh hroot hup hlive => exact Or.inl ((hup x).trans hp)
  | joined h q hfresh hq hroot hup hlive =>
      have hne : h ≠ x := fun he => hfresh (he ▸ hissued)
      refine Or.inl ?_
      rw [hup, if_neg hne, hp]
  | died h hh hroot hlinks hlive =>
      have hgone : ∀ z, Under s.parent z h → s'.contains z = false := by
        intro z hz
        rw [← Bool.not_eq_true, hlive]
        exact fun hz' => hz'.2 hz
      by_cases hu : Under s.parent x h
      · -- Either the node itself was destroyed, or its parent died as well.
        rcases (under_iff_up x h).mp hu with rfl | ⟨q, hq, hqh⟩
        · exact Or.inr (Or.inr (Or.inl (List.mem_singleton_self _)))
        · rw [hp, Option.some.injEq] at hq
          subst hq
          exact Or.inr (Or.inl ⟨hgone x hu, hgone p hqh⟩)
      · exact Or.inl ((hlinks.kept x hu).trans hp)
  | moved h q q' hq hroot hup hlive =>
      by_cases hx : h = x
      · exact Or.inr (Or.inr (Or.inr (hx ▸ List.mem_singleton_self _)))
      · refine Or.inl ?_
        rw [hup, if_neg hx, hp]
  | repainted posts hposts hroot hup hlive => exact Or.inl ((hup x).trans hp)

/-- A live node was live before, below the same parent, or the change tells of
    it. -/
theorem Change.live_cases (x : Handle) (hx : s'.contains x = true) :
    (s.contains x = true ∧ s'.parent x = s.parent x) ∨ Task.entered x ∈ posts ∨
      Task.reparented x ∈ posts := by
  cases hc with
  | founded h hnone hfresh hroot hup hlive =>
      rcases (hlive x).mp hx with rfl | hl
      · exact Or.inr (Or.inl (List.mem_singleton_self _))
      · exact Or.inl ⟨hl, hup x⟩
  | joined h q hfresh hq hroot hup hlive =>
      by_cases hh : h = x
      · exact Or.inr (Or.inl (hh ▸ List.mem_singleton_self _))
      · refine Or.inl ⟨((hlive x).mp hx).resolve_left (Ne.symm hh), ?_⟩
        rw [hup, if_neg hh]
  | died h hh hroot hlinks hlive =>
      rcases (hlive x).mp hx with ⟨hl, hu⟩
      exact Or.inl ⟨hl, hlinks.kept x hu⟩
  | moved h q q' hq hroot hup hlive =>
      by_cases hh : h = x
      · exact Or.inr (Or.inr (hh ▸ List.mem_singleton_self _))
      · refine Or.inl ⟨(hlive x).symm.trans hx, ?_⟩
        rw [hup, if_neg hh]
  | repainted posts hposts hroot hup hlive => exact Or.inl ⟨(hlive x).symm.trans hx, hup x⟩

include hs

/-- What a change tells: no pass is asked for, the nodes that are named were
    live before or are now, one that left is dead, one that moved is not the
    root, and one that entered was never handed out. -/
theorem Change.posts_spec (task : Task) (htask : task ∈ posts) :
    task.schedulesPass = false ∧
      (∀ h, task.Names h → s.contains h = true ∨ s'.contains h = true) ∧
      (∀ h, task = .left h → s'.contains h = false) ∧
      (∀ h, task = .reparented h → s'.root ≠ some h) ∧
      ∀ h, task = .entered h → ¬ s.Issued h := by
  cases hc with
  | founded h hnone hfresh hroot hup hlive =>
      rw [List.mem_singleton] at htask
      subst htask
      simp only [Task.schedulesPass, Task.Names, forall_eq', hlive, true_or, or_true, reduceCtorEq,
        false_implies, implies_true, Task.entered.injEq, hfresh, not_false_eq_true, and_self]
  | joined h p hfresh hp hroot hup hlive =>
      rw [List.mem_singleton] at htask
      subst htask
      simp only [Task.schedulesPass, Task.Names, forall_eq', hlive, true_or, or_true, reduceCtorEq,
        false_implies, implies_true, Task.entered.injEq, hfresh, not_false_eq_true, and_self]
  | died h hh hroot hlinks hlive =>
      rw [List.mem_singleton] at htask
      subst htask
      have hdead : s'.contains h = false := by
        rw [← Bool.not_eq_true, hlive]
        exact fun hl => hl.2 (Under.refl h)
      simp only [Task.schedulesPass, Task.Names, forall_eq', hh, true_or, reduceCtorEq,
        false_implies, implies_true, Task.left.injEq, hdead, and_self]
  | moved h p q hq hroot hup hlive =>
      rw [List.mem_singleton] at htask
      subst htask
      have hh : s.contains h = true := (hs.live h).mpr (Or.inr ⟨q, hq⟩)
      have hne : s'.root ≠ some h := hroot ▸ hs.tree.root_ne h q hq
      simp only [Task.schedulesPass, Task.Names, forall_eq', hh, true_or, reduceCtorEq,
        false_implies, implies_true, Task.reparented.injEq, ne_eq, hne, not_false_eq_true, and_self]
  | repainted posts hposts hroot hup hlive =>
      rcases hposts task htask with ⟨h, kinds, rfl⟩
      simp only [Task.schedulesPass, Task.Names, reduceCtorEq, false_implies, implies_true,
        and_self]

end Changes

/-- What holds of a record that is kept along with a scene, whether or not a
    pass is due. Its nodes and those that queued tasks name are or were nodes
    of the scene. A node that is told to have left is dead, one that is told to
    have moved is not the root. The root of the record is the root of the scene
    as long as it lives, and the root of the scene has no place below another
    node of the record. -/
structure Trails (s : Scene) (t : Store) (queue : List Task) : Prop where
  edits : ∀ task ∈ queue, task.schedulesPass = false
  tracked : ∀ h, t.contains h = true → s.Issued h
  named : ∀ task ∈ queue, ∀ h, task.Names h → s.Issued h
  left_dead : ∀ h, Task.left h ∈ queue → s.contains h = false
  root_unmoved : ∀ r, s.root = some r → Task.reparented r ∉ queue
  root_live : ∀ r, t.root = some r → s.contains r = true → s.root = some r
  root_top : ∀ r, s.root = some r → t.parent r = none

namespace Trails

variable (s s' : Scene) (n n' : Nat) (t t' : Store) (task : Task) (queue posts : List Task)

/-- A scene may change and tell of it. -/
theorem change (h : s.Trails t queue) (hs : s.Sound n)
    (hissued : ∀ x, s.Issued x → s'.Issued x) (hc : Change s s' posts) :
    s'.Trails t (queue ++ posts) := by
  have hposts := hc.posts_spec s s' n hs posts
  refine ⟨fun task htask => ?_, fun x hx => hissued x (h.tracked x hx), fun task htask x hx => ?_,
    fun x hx => ?_, fun r hr hm => ?_, fun r hr hlive => ?_, fun r hr => ?_⟩
  · rcases List.mem_append.mp htask with hq | hq
    · exact h.edits task hq
    · exact (hposts task hq).1
  · rcases List.mem_append.mp htask with hq | hq
    · exact hissued x (h.named task hq x hx)
    · rcases (hposts task hq).2.1 x hx with hl | hl
      · exact hissued x (s.issued_of_contains x hl)
      · exact s'.issued_of_contains x hl
  · rcases List.mem_append.mp hx with hq | hq
    · exact hc.dead_stays s s' posts x (h.left_dead x hq) (h.named _ hq x rfl)
    · exact (hposts _ hq).2.2.1 x rfl
  · -- No queued task names a root that is new.
    rcases List.mem_append.mp hm with hq | hq
    · rcases hc.root_cases s s' posts r hr with hr' | ⟨hfresh, _, _⟩
      · exact h.root_unmoved r hr' hq
      · exact hfresh (h.named _ hq r rfl)
    · exact (hposts _ hq).2.2.2.1 r rfl hr
  · have hrt : t.contains r = true := (t.contains_iff r).mpr (Or.inl hr)
    cases hl : s.contains r with
    | true => exact hc.root_stays s s' posts r (h.root_live r hr hl) hlive
    | false =>
        rw [hc.dead_stays s s' posts r hl (h.tracked r hrt)] at hlive
        exact absurd hlive Bool.false_ne_true
  · rcases hc.root_cases s s' posts r hr with hr' | ⟨hfresh, _, _⟩
    · exact h.root_top r hr'
    · cases hp : t.parent r with
      | none => rfl
      | some p => exact absurd (h.tracked r ((t.contains_iff r).mpr (Or.inr ⟨p, hp⟩))) hfresh

/-- The record may change to one with links of before and of the scene. -/
theorem blend (h : s.Trails t queue) (hs : s.Sound n) (hb : s.Blends t t') :
    s.Trails t' queue := by
  have hheld : ∀ x, Forest.Held s.root s.parent x → s.Issued x := fun x hx =>
    s.issued_of_contains x ((hs.live x).mpr hx)
  refine ⟨h.edits, fun x hx => ?_, h.named, h.left_dead, h.root_unmoved, fun r hr hlive => ?_,
    fun r hr => ?_⟩
  · rcases (t'.contains_iff x).mp hx with hr | ⟨p, hp⟩
    · rcases hb.root x hr with hr | hr
      · exact h.tracked x ((t.contains_iff x).mpr (Or.inl hr))
      · exact hheld x (Or.inl hr)
    · rcases hb.up x p hp with hp | hp
      · exact h.tracked x ((t.contains_iff x).mpr (Or.inr ⟨p, hp⟩))
      · exact hheld x (Or.inr ⟨p, hp⟩)
  · rcases hb.root r hr with hr | hr
    · exact h.root_live r hr hlive
    · exact hr
  · cases hp : t'.parent r with
    | none => rfl
    | some p =>
        rcases hb.up r p hp with hp' | hp'
        · exact hp'.symm.trans (h.root_top r hr)
        · exact hp'.symm.trans (hs.tree.root_up r hr)

/-- A record that mirrors the scene trails it. -/
theorem of_mirrored (hs : s.Sound n) (hm : s.Mirrored t) : s.Trails t [] := by
  have hnil : ∀ task : Task, task ∉ [] := fun _ => List.not_mem_nil
  refine ⟨fun task hq => absurd hq (hnil task), fun x hx => ?_,
    fun task hq => absurd hq (hnil task), fun x hq => absurd hq (hnil _), fun r _ => hnil _,
    fun r hr _ => hm.root ▸ hr, fun r hr => (hm.up r).trans (hs.tree.root_up r hr)⟩
  rw [t.contains_iff_held, Forest.Held, hm.root, hm.up] at hx
  exact s.issued_of_contains x ((hs.live x).mpr hx)

/-- Tasks may go away. -/
theorem tail (h : s.Trails t (task :: queue)) : s.Trails t queue :=
  ⟨fun x hx => h.edits x (List.mem_cons_of_mem task hx), h.tracked,
    fun x hx => h.named x (List.mem_cons_of_mem task hx),
    fun x hx => h.left_dead x (List.mem_cons_of_mem task hx),
    fun r hr hm => h.root_unmoved r hr (List.mem_cons_of_mem task hm), h.root_live, h.root_top⟩

/-- A node that moved may be treated as one that enters. -/
theorem readmit (node : Handle) (h : s.Trails t (.reparented node :: queue)) :
    s.Trails t (.entered node :: queue) := by
  have htail := h.tail s t _ queue
  refine ⟨fun x hx => ?_, h.tracked, fun x hx y hy => ?_, fun x hx => ?_, fun r hr hm => ?_,
    h.root_live, h.root_top⟩
  · rcases List.mem_cons.mp hx with rfl | hq
    · rfl
    · exact htail.edits x hq
  · rcases List.mem_cons.mp hx with rfl | hq
    · exact h.named _ List.mem_cons_self y hy
    · exact htail.named x hq y hy
  · exact htail.left_dead x (List.mem_of_ne_of_mem Task.noConfusion hx)
  · exact htail.root_unmoved r hr (List.mem_of_ne_of_mem Task.noConfusion hm)

end Trails

end Scene

end TreeWatch
