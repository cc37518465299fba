import TreeWatch.Proofs.Sound
import TreeWatch.Step

/-!
# What the Mutators Do to Parent Links

Each mutator of a record is described by the parent links of its result and by
the fact that the result is sound again. Child lists follow from that, because
a sound record keeps under each node the ascending list of the nodes that have
it as their parent.

There are only two shapes of change. Something is put under a node that it is
not above, which is `Sound.of_relink` for a new node and for a moved one. Or
subtrees go away, which is `Cuts`. A record may be cut several times, and what
is gone in the end is what went away in any of the cuts.

Between the two halves of a move the record is not sound: the moved node has
children and no parent. Only what is visible of such a record matters, and
that is what a record without the moved subtree shows.

## Main definitions

* `Store.Cuts`: A sound record without some subtrees.

## Theorems

* `Store.Sound.of_relink`: A sound record with one node put under another.
* `Store.Sound.link_new`, `Store.Sound.link_moved`: The two uses of it.
* `Store.Sound.cuts_remove`: A removal takes out one subtree.
* `Store.Sound.cuts_removeAll`: Several removals take out all their subtrees.
* `Store.Cuts.contains_iff`: What is tracked after a cut.
* `Store.Cuts.children_prefix`: First children that stay remain the first.
* `Store.Cuts.children_rows`: Removing consecutive children closes the gap.
* `Store.Cuts.children_elsewhere`: It leaves the lists of other nodes alone.
-/

namespace TreeWatch

open Forest (Under under_iff_up)

namespace Store

section Links

variable (s : Store) (p h x : Handle)

@[simp] theorem root_link : (s.link p h).root = s.root := rfl

theorem parent_link : (s.link p h).parent x = if h = x then some p else s.parent x :=
  HandleMap.get_insert s.parents h x p

theorem children_link :
    (s.link p h).children x = if p = x then h.insertInto (s.children p) else s.children x :=
  Forest.kids_insert s.childLists p x _

@[simp] theorem root_detach : (s.detach h).2.root = s.root := by
  unfold detach
  cases s.parent h <;> rfl

theorem parent_detach : (s.detach h).2.parent x = if h = x then none else s.parent x := by
  unfold detach
  cases hp : s.parent h with
  | none =>
      by_cases hx : h = x
      · rw [if_pos hx, ← hx, hp]
      · rw [if_neg hx]
  | some q => exact HandleMap.get_erase s.parents h x

-- Taking a node out and putting it under `p` changes its parent and no other.
theorem parent_moved :
    ((s.detach h).2.link p h).parent x = if h = x then some p else s.parent x := by
  rw [parent_link, parent_detach]
  by_cases hx : h = x
  · rw [if_pos hx, if_pos hx]
  · rw [if_neg hx, if_neg hx, if_neg hx]

theorem children_detach (hp : s.parent h = some p) :
    (s.detach h).2.children x = if p = x then (s.children p).erase h else s.children x := by
  have hlists : (s.detach h).2.childLists =
      if ((s.children p).erase h).isEmpty then s.childLists.erase p
      else s.childLists.insert p ((s.children p).erase h) := by
    simp only [detach, hp]
  rw [children, hlists]
  by_cases hempty : ((s.children p).erase h).isEmpty = true
  · rw [if_pos hempty, Forest.kids_erase, List.isEmpty_iff.mp hempty, children]
  · rw [if_neg hempty, Forest.kids_insert, children, children]

end Links

/-- A record that differs from a sound one in the parent of a single node is
    sound if the new parent is not below the node. -/
theorem Sound.of_relink (s t : Store) (hs : s.Sound) (p h : Handle) (hp : s.contains p = true)
    (hroot : s.root ≠ some h) (hph : ¬ Under s.parent p h) (hr : t.root = s.root)
    (hup : ∀ x, t.parent x = if h = x then some p else s.parent x)
    (hmem : ∀ q c, c ∈ t.children q ↔ t.parent c = some q)
    (hasc : ∀ q, Handle.Ascending (t.children q))
    (howned : ∀ q, t.childLists.contains q = true → q = p ∨ s.childLists.contains q = true) :
    t.Sound := by
  have htree := hs.tree.relink t.parent t.children p h ((s.contains_iff_held p).mp hp) hroot hph
    hup hmem fun q => (hasc q).nodup
  refine ⟨hr ▸ htree, hasc, fun q hq => ?_⟩
  have hsq : s.contains q = true := by
    rcases howned q hq with rfl | hq
    · exact hp
    · exact hs.owned q hq
  rw [contains_iff, hr, hup]
  by_cases hx : h = q
  · exact Or.inr ⟨p, if_pos hx⟩
  · rw [if_neg hx]
    exact (s.contains_iff q).mp hsq

/-- A new node can be put under any tracked one. -/
theorem Sound.link_new (s : Store) (hs : s.Sound) (p h : Handle) (hp : s.contains p = true)
    (hh : s.contains h = false) : (s.link p h).Sound := by
  rcases (s.not_contains_iff h).mp hh with ⟨hroot, hnone⟩
  -- An untracked node is in no list, and no tracked node lies under it.
  have hfresh : ∀ q, h ∉ s.children q := by
    intro q hm
    rw [hs.tree.mem_kids, hnone] at hm
    exact absurd hm (by simp only [reduceCtorEq, not_false_eq_true])
  have hph : ¬ Under s.parent p h := by
    intro hu
    have hheld := hs.tree.held_of_under p h ((s.contains_iff_held p).mp hp) hu
    rw [← contains_iff_held, hh] at hheld
    exact absurd hheld Bool.false_ne_true
  refine hs.of_relink s _ p h hp hroot hph rfl (s.parent_link p h) (fun q c => ?_) (fun q => ?_)
    fun q hq => ?_
  · rw [children_link, parent_link]
    by_cases hq : p = q
    · subst hq
      rw [if_pos rfl, Handle.mem_insertInto, hs.tree.mem_kids, eq_comm (a := c)]
      by_cases hc : h = c
      · simp only [hc, true_or, if_true]
      · simp only [hc, false_or, if_false]
    · rw [if_neg hq, hs.tree.mem_kids]
      by_cases hc : h = c
      · subst hc
        simp only [hnone, if_true, Option.some.injEq, hq, reduceCtorEq]
      · simp only [hc, if_false]
  · rw [children_link]
    by_cases hq : p = q
    · rw [if_pos hq]
      exact Handle.ascending_insertInto h _ (hs.ascending p) (hfresh p)
    · rw [if_neg hq]
      exact hs.ascending q
  · rw [link, Std.ExtTreeMap.contains_insert, Bool.or_eq_true, beq_iff_eq] at hq
    rcases hq with hq | hq
    · exact Or.inl (Std.LawfulEqOrd.eq_of_compare hq).symm
    · exact Or.inr hq

section Detached

variable (s : Store) (hs : s.Sound) (p h : Handle) (hp : s.parent h = some p)

include hs hp

/-- Taking a node out leaves every other child where it is. -/
theorem Sound.mem_children_detach (x c : Handle) :
    c ∈ (s.detach h).2.children x ↔ c ≠ h ∧ s.parent c = some x := by
  rw [s.children_detach p h x hp]
  by_cases hx : p = x
  · subst hx
    rw [if_pos rfl, (hs.tree.nodup p).mem_erase_iff, hs.tree.mem_kids]
  · rw [if_neg hx, hs.tree.mem_kids]
    refine ⟨fun hc => ⟨?_, hc⟩, fun hc => hc.2⟩
    rintro rfl
    rw [hp, Option.some.injEq] at hc
    exact hx hc

theorem Sound.ascending_detach (x : Handle) : Handle.Ascending ((s.detach h).2.children x) := by
  rw [s.children_detach p h x hp]
  by_cases hx : p = x
  · rw [if_pos hx]
    exact List.Pairwise.sublist List.erase_sublist (hs.ascending p)
  · rw [if_neg hx]
    exact hs.ascending x

/-- Taking a node out gives no node a list that had none. -/
theorem Sound.owned_detach (x : Handle) (hx : (s.detach h).2.childLists.contains x = true) :
    s.childLists.contains x = true := by
  simp only [detach, hp] at hx
  by_cases hempty : ((s.children p).erase h).isEmpty = true
  · rw [if_pos hempty, Std.ExtTreeMap.contains_erase, Bool.and_eq_true] at hx
    exact hx.2
  · rw [if_neg hempty, Std.ExtTreeMap.contains_insert, Bool.or_eq_true, beq_iff_eq] at hx
    rcases hx with hx | hx
    · rw [← Std.LawfulEqOrd.eq_of_compare hx]
      rcases (s.mem_children_iff p h).mp ((hs.tree.mem_kids p h).mpr hp) with ⟨list, hl, _⟩
      exact (HandleMap.contains_iff _ p).mpr ⟨list, hl⟩
    · exact hx

end Detached

/-- A node that was taken out can be put under any tracked node that is not
    below it. -/
theorem Sound.link_moved (s : Store) (hs : s.Sound) (p h q : Handle) (hp : s.contains p = true)
    (hq : s.parent h = some q) (hph : ¬ Under s.parent p h) :
    ((s.detach h).2.link p h).Sound := by
  have hroot : s.root ≠ some h := hs.tree.root_ne h q hq
  have hkids := hs.mem_children_detach s q h hq
  refine hs.of_relink s _ p h hp hroot hph (s.root_detach h) (s.parent_moved p h) (fun x c => ?_)
    (fun x => ?_) fun x hx => ?_
  · rw [children_link, parent_moved]
    by_cases hx : p = x
    · subst hx
      rw [if_pos rfl, Handle.mem_insertInto, hkids]
      by_cases hc : h = c
      · simp only [hc, true_or, if_true]
      · simp only [hc, Ne.symm hc, ne_eq, not_false_eq_true, true_and, false_or, if_false]
    · rw [if_neg hx, hkids]
      by_cases hc : h = c
      · simp only [hc, ne_eq, not_true_eq_false, false_and, if_true, Option.some.injEq, hx]
      · simp only [hc, Ne.symm hc, ne_eq, not_false_eq_true, true_and, if_false]
  · have hdasc := hs.ascending_detach s q h hq
    rw [children_link]
    by_cases hx : p = x
    · rw [if_pos hx]
      exact Handle.ascending_insertInto h _ (hdasc p) fun hm => ((hkids p h).mp hm).1 rfl
    · rw [if_neg hx]
      exact hdasc x
  · rw [link, Std.ExtTreeMap.contains_insert, Bool.or_eq_true, beq_iff_eq] at hx
    rcases hx with hx | hx
    · exact Or.inl (Std.LawfulEqOrd.eq_of_compare hx).symm
    · exact Or.inr (hs.owned_detach s q h hq x hx)

section Rows

variable (s : Store) (hs : s.Sound) (p : Handle) (rows : List Handle)
  (hrow : ∀ v ∈ rows, s.parent v = some p)

include hs hrow

-- The path from the parent of a row never leads to a row.
theorem Sound.parent_not_under_rows : ¬ ∃ v ∈ rows, Under s.parent p v := by
  rintro ⟨v, hv, hu⟩
  exact hs.tree.acyclic v p (hrow v hv) hu

-- No row is below another one.
theorem Sound.under_rows_iff (c : Handle) (hc : c ∈ s.children p) :
    (∃ v ∈ rows, Under s.parent c v) ↔ c ∈ rows := by
  constructor
  · rintro ⟨v, hv, hu⟩
    by_contra hne
    have hvp := (hs.tree.mem_kids p v).mpr (hrow v hv)
    exact hs.tree.sibling_not_under p c v hc hvp (fun he => hne (he ▸ hv)) hu
  · exact fun hc => ⟨c, hc, Under.refl c⟩

end Rows

/-- The record `t` is `s` without the nodes that are `gone`, which are whole
    subtrees and not the root. -/
structure Cuts (s t : Store) (gone : Handle → Prop) : Prop where
  sound : t.Sound
  root : t.root = s.root
  links : Forest.Prunes s.parent t.parent gone
  root_stays : ∀ r, s.root = some r → ¬ gone r

namespace Cuts

variable {s t u : Store} {gone gone' : Handle → Prop}

-- Nothing is taken out.
theorem refl (s : Store) (hs : s.Sound) : Cuts s s fun _ => False :=
  ⟨hs, rfl, ⟨fun _ _ _ h => h, fun _ h => h.elim, fun _ _ => rfl⟩, fun _ _ h => h⟩

theorem trans (hst : Cuts s t gone) (htu : Cuts t u gone') :
    Cuts s u fun x => gone x ∨ gone' x := by
  refine ⟨htu.sound, htu.root.trans hst.root, hst.links.comp htu.links, fun r hr hg => ?_⟩
  rcases hg with hg | hg
  · exact hst.root_stays r hr hg
  · exact htu.root_stays r (hst.root.trans hr) hg

theorem congr_gone (hst : Cuts s t gone) (hg : ∀ x, gone' x ↔ gone x) : Cuts s t gone' :=
  ⟨hst.sound, hst.root, hst.links.congr_gone hg,
    fun r hr h => hst.root_stays r hr ((hg r).mp h)⟩

/-- Two cuts that take out the same leave the same links. -/
theorem parent_eq (hst : Cuts s t gone) (hsu : Cuts s u gone) (x : Handle) :
    t.parent x = u.parent x := by
  by_cases hx : gone x
  · rw [hst.links.cut x hx, hsu.links.cut x hx]
  · rw [hst.links.kept x hx, hsu.links.kept x hx]

/-- What is tracked after a cut. -/
theorem contains_iff (hst : Cuts s t gone) (x : Handle) :
    t.contains x = true ↔ s.contains x = true ∧ ¬ gone x := by
  rw [Store.contains_iff, Store.contains_iff, hst.root]
  constructor
  · rintro (hr | ⟨p, hp⟩)
    · exact ⟨Or.inl hr, hst.root_stays x hr⟩
    · rcases hst.links.up_of_up x p hp with ⟨hp, hg⟩
      exact ⟨Or.inr ⟨p, hp⟩, hg⟩
  · rintro ⟨hr | ⟨p, hp⟩, hg⟩
    · exact Or.inl hr
    · exact Or.inr ⟨p, (hst.links.kept x hg).trans hp⟩

/-- What is not tracked after a cut was not tracked before or went away. -/
theorem not_contains_iff (hst : Cuts s t gone) (x : Handle) :
    t.contains x = false ↔ s.contains x = false ∨ gone x := by
  rw [← Bool.not_eq_true, hst.contains_iff, not_and_or, not_not, Bool.not_eq_true]

/-- A cut that takes out a tracked node leaves fewer nodes. -/
theorem ncard_lt (hst : Cuts s t gone) (x : Handle) (hx : s.contains x = true) (hg : gone x) :
    {y | t.contains y = true}.ncard < {y | s.contains y = true}.ncard :=
  Set.ncard_lt_ncard ⟨fun y hy => ((hst.contains_iff y).mp hy).1,
    fun hsup => ((hst.contains_iff x).mp (hsup hx)).2 hg⟩

/-- A node that stays keeps those of its children that stay. -/
theorem mem_children_iff (hst : Cuts s t gone) (hs : s.Sound) (p c : Handle) :
    c ∈ t.children p ↔ c ∈ s.children p ∧ ¬ gone c := by
  rw [hst.sound.tree.mem_kids, hs.tree.mem_kids]
  refine ⟨hst.links.up_of_up c p, fun hc => ?_⟩
  rw [hst.links.kept c hc.2]
  exact hc.1

/-- First children of a node that all stay remain its first ones. -/
theorem children_prefix (hst : Cuts s t gone) (hs : s.Sound) (p : Handle) (front back : List Handle)
    (hkids : s.children p = front ++ back) (hstay : ∀ c ∈ front, ¬ gone c) :
    ∃ back', t.children p = front ++ back' := by
  have hkeep : ∀ c ∈ front, c ∈ t.children p := by
    intro c hc
    rw [hst.mem_children_iff hs, hkids]
    exact ⟨List.mem_append_left back hc, hstay c hc⟩
  have hold : ∀ c ∈ t.children p, c ∈ front ++ back := fun c hc =>
    hkids ▸ ((hst.mem_children_iff hs p c).mp hc).1
  rcases Handle.ascending_prefix front back (t.children p) (hkids ▸ hs.ascending p)
    (hst.sound.ascending p) hkeep hold with ⟨back', hback, _⟩
  exact ⟨back', hback⟩

/-- When consecutive children of a node go away, the rows before and after
    them close up. -/
theorem children_rows (hst : Cuts s t gone) (hs : s.Sound) (p : Handle)
    (front rows back : List Handle) (hkids : s.children p = front ++ rows ++ back)
    (hgone : ∀ c ∈ s.children p, gone c ↔ c ∈ rows) : t.children p = front ++ back := by
  have hnd := hs.tree.nodup p
  have hasc := hs.ascending p
  rw [hkids] at hnd hasc
  refine hst.sound.children_eq t p _ (List.Pairwise.sublist ?_ hasc) fun c => ?_
  · rw [List.append_assoc]
    exact (List.Sublist.refl front).append (List.sublist_append_right rows back)
  · rw [← hst.sound.tree.mem_kids, hst.mem_children_iff hs, List.mem_append]
    constructor
    · intro hc
      rw [hkids, List.mem_append, List.mem_append]
      refine ⟨by tauto, fun hg => ?_⟩
      -- A row that stays is not among the removed ones, since no row is twice.
      have hrow := (hgone c (by rw [hkids, List.mem_append, List.mem_append]; tauto)).mp hg
      rcases hc with hc | hc
      · exact (List.disjoint_of_nodup_append (List.Nodup.of_append_left hnd)) hc hrow
      · exact (List.disjoint_of_nodup_append hnd) (List.mem_append_right front hrow) hc
    · rintro ⟨hc, hg⟩
      have hrow := mt (hgone c hc).mpr hg
      rw [hkids, List.mem_append, List.mem_append] at hc
      tauto

/-- When rows under one node are removed, the other nodes that stay keep their
    children: a child that goes is a row, or its parent goes as well. -/
theorem children_elsewhere (hst : Cuts s t gone) (hs : s.Sound) (p : Handle) (rows : List Handle)
    (hrow : ∀ v ∈ rows, s.parent v = some p) (hgone : ∀ x, gone x ↔ ∃ v ∈ rows, Under s.parent x v)
    (x : Handle) (hxp : p ≠ x) (hx : ¬ gone x) : t.children x = s.children x := by
  refine Handle.ascending_ext _ _ (hst.sound.ascending x) (hs.ascending x) fun c => ?_
  rw [hst.mem_children_iff hs]
  refine ⟨fun hcx => hcx.1, fun hcx => ⟨hcx, fun hg => ?_⟩⟩
  rcases (hgone c).mp hg with ⟨v, hv, hu⟩
  have hcp := (hs.tree.mem_kids x c).mp hcx
  rcases (under_iff_up c v).mp hu with rfl | ⟨q, hq, hqv⟩
  · rw [hrow c hv, Option.some.injEq] at hcp
    exact hxp hcp
  · rw [hcp, Option.some.injEq] at hq
    exact hx ((hgone x).mpr ⟨v, hv, hq ▸ hqv⟩)

end Cuts

/-- Pruning a forest drops the child lists and the parent links of what a walk
    over it visits. -/
theorem prune_of_walk (s : Store) (roots out : List Handle)
    (hw : Forest.Walk s.children roots out) (hnd : out.Nodup) :
    (s.prune roots).1 = out ∧ (s.prune roots).2.root = s.root ∧
      (∀ x, (s.prune roots).2.parent x = if x ∈ out then none else s.parent x) ∧
      ∀ x, (s.prune roots).2.childLists[x]? = if x ∈ out then none else s.childLists[x]? := by
  rcases Forest.uproot_eq_of_walk roots out s.childLists hw hnd with ⟨hout, hlists⟩
  refine ⟨hout, rfl, fun x => ?_, hlists⟩
  have hget := HandleMap.get_eraseAll s.parents out x
  rw [← hout] at hget ⊢
  exact hget

/-- Nothing is recorded below a node that is not tracked. -/
theorem Sound.parent_of_under_untracked (s : Store) (hs : s.Sound) (h x : Handle)
    (hh : s.contains h = false) (hx : Under s.parent x h) : s.parent x = none := by
  cases hp : s.parent x with
  | none => rfl
  | some p =>
      have hheld := hs.tree.held_of_under x h (Or.inr ⟨p, hp⟩) hx
      rw [← contains_iff_held, hh] at hheld
      exact absurd hheld Bool.false_ne_true

/-- The root lies under no other node. -/
theorem Sound.root_not_under (s : Store) (hs : s.Sound) (h : Handle) (hroot : s.root ≠ some h)
    (r : Handle) (hr : s.root = some r) : ¬ Under s.parent r h := by
  intro hu
  rw [Forest.eq_of_under_top (hs.tree.root_up r hr) hu] at hroot
  exact hroot hr

/-- Forgetting a tracked node that is not the root, in terms of the walk over
    its subtree: the lists and links of the visited nodes are gone, and so is
    the place of the node in the list of its parent. -/
theorem Sound.remove_eq (s : Store) (hs : s.Sound) (p h : Handle) (hp : s.parent h = some p)
    (hroot : s.root ≠ some h) (out : List Handle) (hw : Forest.Walk s.children [h] out) :
    (s.remove h).1 = out ∧ (s.remove h).2.root = s.root ∧
      (∀ x, (s.remove h).2.parent x = if x ∈ out then none else (s.detach h).2.parent x) ∧
      ∀ x, (s.remove h).2.childLists[x]? =
        if x ∈ out then none else (s.detach h).2.childLists[x]? := by
  have hh : s.contains h = true := (s.contains_iff h).mpr (Or.inr ⟨p, hp⟩)
  have hnd := Forest.nodup_walk hs.tree [h] out hw (List.pairwise_singleton _ h)
  -- The list that loses `h` belongs to a node outside of the walk.
  have hpout : p ∉ out := by
    intro hm
    rcases (Forest.mem_walk hs.tree [h] out hw p).mp hm with ⟨r, hr, hu⟩
    rw [List.mem_singleton] at hr
    exact hs.tree.acyclic h p hp (hr ▸ hu)
  have hw' : Forest.Walk (s.detach h).2.children [h] out := by
    refine hw.congr [h] out fun x hx => ?_
    rw [s.children_detach p h x hp, if_neg (by rintro rfl; exact hpout hx)]
  have hrem : s.remove h = (s.detach h).2.prune [h] := by
    simp only [remove, hh, Bool.not_true, Bool.false_eq_true, if_false, hroot]
  rw [hrem, ← s.root_detach h]
  exact (s.detach h).2.prune_of_walk [h] out hw' hnd

/-- A removal takes out a node that is not the root and all below it, in
    pre-order. -/
theorem Sound.cuts_remove_tracked (s : Store) (hs : s.Sound) (p h : Handle)
    (hp : s.parent h = some p) (hroot : s.root ≠ some h) :
    Cuts s (s.remove h).2 (Under s.parent · h) ∧
      Forest.Walk s.children [h] (s.remove h).1 := by
  rcases hs.tree.exists_walk [h] with ⟨out, hw⟩
  have hmem : ∀ x, x ∈ out ↔ Under s.parent x h := by
    intro x
    rw [Forest.mem_walk hs.tree [h] out hw x]
    simp only [List.mem_singleton, exists_eq_left]
  rcases hs.remove_eq s p h hp hroot out hw with ⟨hout, hr, hpar, hlists⟩
  have htop := hs.root_not_under s h hroot
  -- The walk of the removal is the subtree, so the links are pruned there.
  have hprunes : Forest.Prunes s.parent (s.remove h).2.parent (Under s.parent · h) := by
    refine ⟨fun x p hx hp => (Under.of_up hx).trans hp, fun x hx => ?_, fun x hx => ?_⟩
    · rw [hpar, if_pos ((hmem x).mpr hx)]
    · have hxh : h ≠ x := by
        rintro rfl
        exact hx (Under.refl h)
      rw [hpar, if_neg (mt (hmem x).mp hx), parent_detach, if_neg hxh]
  have hkids : ∀ x, (s.remove h).2.children x =
      if x ∈ out then [] else (s.detach h).2.children x := by
    intro x
    rw [children, children, Forest.kids_eq, Forest.kids_eq, hlists]
    by_cases hx : x ∈ out
    · rw [if_pos hx, if_pos hx, Option.getD_none]
    · rw [if_neg hx, if_neg hx]
  have hasc : ∀ x, Handle.Ascending ((s.remove h).2.children x) := by
    intro x
    rw [hkids]
    by_cases hx : x ∈ out
    · rw [if_pos hx]
      exact List.Pairwise.nil
    · rw [if_neg hx]
      exact hs.ascending_detach s p h hp x
  -- Child lists are emptied below the node, and its own parent no longer lists it.
  have hcmem := hs.tree.mem_kids_cut h _ (s.remove h).2.children hprunes
    (fun x hx => by rw [hkids, if_pos ((hmem x).mpr hx)]) fun x hx c => by
      rw [hkids, if_neg (mt (hmem x).mp hx), hs.mem_children_detach s p h hp, hs.tree.mem_kids]
  have htree := hprunes.isTree s.root s.children _ hs.tree htop hcmem fun q => (hasc q).nodup
  refine ⟨⟨⟨hr ▸ htree, hasc, fun q hq => ?_⟩, hr, hprunes, htop⟩, hout ▸ hw⟩
  -- The lists that are left belong to nodes that are left.
  rcases (HandleMap.contains_iff _ q).mp hq with ⟨list, hlist⟩
  rw [hlists] at hlist
  by_cases hqout : q ∈ out
  · rw [if_pos hqout] at hlist
    exact absurd hlist (by simp only [reduceCtorEq, not_false_eq_true])
  · rw [if_neg hqout] at hlist
    have hown := hs.owned_detach s p h hp q ((HandleMap.contains_iff _ q).mpr ⟨list, hlist⟩)
    rw [contains_iff, hr, hprunes.kept q (mt (hmem q).mpr hqout)]
    exact (s.contains_iff q).mp (hs.owned q hown)

/-- Removing a node that is not the root leaves a sound record without its
    subtree. If the node is not tracked, that is the record as it was. -/
theorem Sound.cuts_remove (s : Store) (hs : s.Sound) (h : Handle) (hroot : s.root ≠ some h) :
    Cuts s (s.remove h).2 (Under s.parent · h) := by
  cases hh : s.contains h with
  | true =>
      rcases ((s.contains_iff h).mp hh).resolve_left hroot with ⟨p, hp⟩
      exact (hs.cuts_remove_tracked s p h hp hroot).1
  | false =>
      have hself : (s.remove h).2 = s := by
        simp only [remove, hh, Bool.not_false, if_true]
      rw [hself]
      exact ⟨hs, rfl, ⟨fun x p hx hp => (Under.of_up hx).trans hp,
        fun x hx => hs.parent_of_under_untracked s h x hh hx, fun _ _ => rfl⟩,
        hs.root_not_under s h hroot⟩

/-- A move is a removal of the subtree and an insertion of the same subtree:
    the record without it is a cut of the record after the move, too. -/
theorem Sound.cuts_of_moved (s t : Store) (hs : s.Sound) (h : Handle) (hroot : s.root ≠ some h)
    (hr : t.root = s.root) (hup : ∀ x, x ≠ h → t.parent x = s.parent x) :
    Cuts t (s.remove h).2 (Under t.parent · h) := by
  have hcut := hs.cuts_remove s h hroot
  have hbelow := Forest.under_congr_below hup
  refine ⟨hcut.sound, hcut.root.trans hr.symm, ⟨fun x p hx hp => (Under.of_up hx).trans hp,
    fun x hx => ?_, fun x hx => ?_⟩, fun r hr' => ?_⟩
  · exact hcut.links.cut x ((hbelow x).mp hx)
  · have hxh : x ≠ h := by
      rintro rfl
      exact hx (Under.refl x)
    rw [hcut.links.kept x (mt (hbelow x).mpr hx), hup x hxh]
  · rw [hbelow]
    exact hcut.root_stays r (hr ▸ hr')

theorem removeAll_cons (s : Store) (h : Handle) (victims : List Handle) :
    (s.removeAll (h :: victims)).2 = ((s.remove h).2.removeAll victims).2 := by
  have hfold : ∀ (vs : List Handle) (acc acc' : List Handle × Store), acc.2 = acc'.2 →
      (vs.foldl (fun a h => (a.1 ++ (a.2.remove h).1, (a.2.remove h).2)) acc).2 =
        (vs.foldl (fun a h => (a.1 ++ (a.2.remove h).1, (a.2.remove h).2)) acc').2 := by
    intro vs
    induction vs with
    | nil => exact fun _ _ he => he
    | cons v vs ih =>
        intro acc acc' he
        rw [List.foldl_cons, List.foldl_cons]
        exact ih _ _ (by rw [he])
  exact hfold victims _ _ rfl

/-- Several removals take out the subtrees of all the removed nodes. A node
    below an earlier one is not tracked any more when its turn comes. -/
theorem Sound.cuts_removeAll (s : Store) (hs : s.Sound) (victims : List Handle)
    (hroot : ∀ r, s.root = some r → r ∉ victims) :
    Cuts s (s.removeAll victims).2 fun x => ∃ v ∈ victims, Under s.parent x v := by
  induction victims generalizing s with
  | nil =>
      refine ⟨hs, rfl, ⟨fun _ _ _ hg => ?_, fun _ hg => ?_, fun _ _ => rfl⟩, fun _ _ hg => ?_⟩ <;>
        exact absurd hg (by simp only [List.not_mem_nil, false_and, exists_false,
          not_false_eq_true])
  | cons h victims ih =>
      have hcut := hs.cuts_remove s h fun hr => hroot h hr List.mem_cons_self
      have hrest := ih (s.remove h).2 hcut.sound fun r hr hm =>
        hroot r (hcut.root ▸ hr) (List.mem_cons_of_mem h hm)
      rw [removeAll_cons]
      refine (hcut.trans hrest).congr_gone fun x => ?_
      by_cases hx : Under s.parent x h
      · simp only [hx, true_or, List.mem_cons, exists_eq_or_imp]
      · simp only [hx, false_or, List.mem_cons, exists_eq_or_imp, hcut.links.under_iff x _ hx]

end Store

end TreeWatch
