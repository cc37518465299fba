import TreeWatch.Proofs.Mutation

/-!
# Keeping a Record

The record is private to the runtime, but its mutators are meant to be used on
their own as well, each under the conditions of its description: a new node
goes under a tracked one, a moved node goes under a tracked node outside of
its subtree, and everything else may be called for any handle. Here these
conditions are written down, and every record that is kept this way is shown
to be sound.

Taking a node out and putting it in again is one mutation. Between its halves
the subtree of the node hangs in the air and the check would object to it.

What a removal returns is compared with `Store.descendants`, which is a
bounded walk. That it is the whole pre-order walk of the subtree is
`Sound.walk_descendants`; everything said about returned lists rests on it.

## Main definitions

* `Store.Op`: A mutation as its description has it.
* `Store.Op.Documented`: The condition under which it may be used.
* `Store.Kept`: A record that was only ever mutated that way.
* `Store.Forgets`: Some nodes are gone and nothing else has changed.
* `Store.Hangs`: A node is put under another and nothing else has changed.

## Theorems

* `Store.Sound.walk_descendants`: The nodes below a node are all listed.
* `Store.Sound.cuts_removeChildren`: Forgetting what is below a node.
* `Store.Sound.remove_forgets`, `Store.Sound.removeChildren_forgets`: What the
  removals return and leave.
* `Store.Sound.insert_hangs`, `Store.Sound.move_hangs`: What the insertions
  return and change.
* `Store.Op.apply_sound`: A documented mutation succeeds and keeps the record
  sound.
* `Store.Kept.upkeep`: All of this for every record that is kept.
-/

namespace TreeWatch

open Forest (Under under_iff_up Walk)

namespace Handle

/-- A new handle is found at the row where it was put. -/
theorem idxOf?_insertInto (h : Handle) (hs : List Handle) (hh : h ∉ hs) :
    (h.insertInto hs).idxOf? h = some (h.insertionRow hs) := by
  have hfront : h ∉ hs.takeWhile (· < h) := fun hm => hh (List.takeWhile_subset _ hm)
  rw [insertInto_eq, insertionRow, List.idxOf?_eq_some_iff]
  refine ⟨by rw [List.length_append, List.length_cons]; omega, ?_, fun j hj => ?_⟩
  · rw [List.getElem_append_right (Nat.le_refl _)]
    simp only [Nat.sub_self, List.getElem_cons_zero]
  · rw [List.getElem_append_left hj]
    intro he
    have hm := List.getElem_mem hj
    rw [he] at hm
    exact hfront hm

end Handle

namespace Forest

/-- A walk has one outcome. -/
theorem Walk.unique {kids : Handle → List Handle} (roots out out' : List Handle)
    (hw : Walk kids roots out) (hw' : Walk kids roots out') : out = out' := by
  rw [← preorder_eq_of_walk roots out hw (out.length + out'.length) (by omega),
    preorder_eq_of_walk roots out' hw' (out.length + out'.length) (by omega)]

end Forest

namespace Store

/-- A mutation of a record. Taking a node out and putting it in again under
    another is one mutation. -/
inductive Op where
  | reset (root : Option Handle)
  | insert (parent h : Handle)
  | remove (h : Handle)
  | removeChildren (h : Handle)
  | move (parent h : Handle)
deriving DecidableEq

/-- The record after a mutation. -/
def Op.apply (s : Store) : Op → Except Fault Store
  | .reset root => .ok (ofRoot root)
  | .insert p h => (s.insert p h).map Prod.snd
  | .remove h => .ok (s.remove h).2
  | .removeChildren h => .ok (s.removeChildren h).2
  | .move p h => ((s.detach h).2.attach p h).map Prod.snd

/-- The condition under which a mutation may be used: a new node goes under a
    tracked one, and a moved one under a tracked node outside of its subtree. -/
def Op.Documented (s : Store) : Op → Prop
  | .insert p h => s.contains p = true ∧ s.contains h = false
  | .move p h => s.contains p = true ∧ p ≠ h ∧ p ∉ s.descendants h
  | _ => True

instance (s : Store) : (op : Op) → Decidable (op.Documented s)
  | .reset _ | .remove _ | .removeChildren _ => inferInstanceAs (Decidable True)
  | .insert p h => inferInstanceAs (Decidable (s.contains p = true ∧ s.contains h = false))
  | .move p h =>
    inferInstanceAs (Decidable (s.contains p = true ∧ p ≠ h ∧ p ∉ s.descendants h))

/-- A record that started out empty and was only mutated as documented. -/
inductive Kept : Store → Prop where
  /-- The record that tracks nothing. -/
  | empty : Kept empty
  /-- The record after one more mutation. -/
  | mutated (s t : Store) (op : Op) (hk : Kept s) (hd : op.Documented s)
      (ht : op.apply s = .ok t) : Kept t

/-- The record `t` is `s` without the nodes in `gone`: these are not tracked,
    and every other node keeps its parent and those of its children that are
    not gone. -/
structure Forgets (s : Store) (gone : List Handle) (t : Store) : Prop where
  untracked : ∀ x ∈ gone, t.contains x = false
  tracked : ∀ x, x ∉ gone → t.contains x = s.contains x
  parent_eq : ∀ x, x ∉ gone → t.parent x = s.parent x
  children_eq : ∀ x, x ∉ gone → t.children x = (s.children x).filter (· ∉ gone)

/-- The record `t` is `s` with `h` put under `p`: no other node has another
    parent, and no other node than `p` has other children. -/
structure Hangs (s : Store) (p h : Handle) (t : Store) : Prop where
  root : t.root = s.root
  parent_self : t.parent h = some p
  parent_eq : ∀ x, x ≠ h → t.parent x = s.parent x
  mem_children : ∀ c, c ∈ t.children p ↔ c = h ∨ c ∈ s.children p
  children_eq : ∀ x, x ≠ p → t.children x = s.children x

section Listed

variable (s : Store) (hs : s.Sound) (h x : Handle)

include hs

/-- The listed nodes below a node are the whole pre-order walk of its
    subtree. Each of them has a parent link, so the bound admits them all. -/
theorem Sound.walk_descendants : Walk s.children (s.children h) (s.descendants h) := by
  rcases hs.tree.exists_walk (s.children h) with ⟨out, hw⟩
  have hnd := Forest.nodup_walk hs.tree _ out hw (hs.tree.kids_apart h)
  have hlink : ∀ x ∈ out, ∃ p, s.parents[x]? = some p := by
    intro x hx
    rcases (Forest.mem_walk hs.tree _ out hw x).mp hx with ⟨c, hc, hu⟩
    rcases (under_iff_up x c).mp hu with rfl | ⟨p, hp, _⟩
    · exact ⟨h, (hs.tree.mem_kids h x).mp hc⟩
    · exact ⟨p, hp⟩
  rw [descendants, Forest.preorder_eq_of_walk _ out hw _
    (HandleMap.length_le_size s.parents out hnd hlink)]
  exact hw

theorem Sound.nodup_descendants : (s.descendants h).Nodup :=
  Forest.nodup_walk hs.tree _ _ (hs.walk_descendants s h) (hs.tree.kids_apart h)

theorem Sound.mem_descendants : x ∈ s.descendants h ↔ ∃ c ∈ s.children h, Under s.parent x c :=
  Forest.mem_walk hs.tree _ _ (hs.walk_descendants s h) x

/-- A node and the nodes below it are what lies under it. -/
theorem Sound.mem_subtree : x ∈ h :: s.descendants h ↔ Under s.parent x h := by
  rw [List.mem_cons, hs.mem_descendants, hs.tree.under_iff_kid]

/-- No node is below itself. -/
theorem Sound.not_mem_descendants : h ∉ s.descendants h := by
  rw [hs.mem_descendants]
  rintro ⟨c, hc, hu⟩
  exact hs.tree.acyclic c h ((hs.tree.mem_kids h c).mp hc) hu

end Listed

/-- A cut forgets what it takes out and nothing else. -/
theorem Cuts.forgets (s t : Store) (gone : List Handle) (hc : Cuts s t (· ∈ gone))
    (hs : s.Sound) : Forgets s gone t := by
  refine ⟨fun x hx => (hc.not_contains_iff x).mpr (Or.inr hx), fun x hx => ?_, hc.links.kept,
    fun x _ => ?_⟩
  · rw [Bool.eq_iff_iff, hc.contains_iff]
    exact and_iff_left hx
  · refine hc.sound.children_eq t x _ (List.Pairwise.filter _ (hs.ascending x)) fun c => ?_
    rw [List.mem_filter, decide_eq_true_eq, ← hc.mem_children_iff hs, hc.sound.tree.mem_kids]

section Removals

variable (s : Store) (hs : s.Sound)

include hs

/-- Forgetting what is below a node, in terms of the listed nodes: their lists
    and links are gone, and so is the list of the node itself. -/
theorem Sound.removeChildren_eq (h : Handle) :
    (s.removeChildren h).1 = s.descendants h ∧ (s.removeChildren h).2.root = s.root ∧
      (∀ x, (s.removeChildren h).2.parent x =
        if x ∈ s.descendants h then none else s.parent x) ∧
      ∀ x, (s.removeChildren h).2.childLists[x]? =
        if x ∈ s.descendants h then none else (s.childLists.erase h)[x]? := by
  have hw : Walk ({ s with childLists := s.childLists.erase h } : Store).children (s.children h)
      (s.descendants h) := by
    refine (hs.walk_descendants s h).congr _ _ fun x hx => ?_
    rw [children, Forest.kids_erase, children,
      if_neg (by rintro rfl; exact hs.not_mem_descendants s h hx)]
  exact prune_of_walk _ _ _ hw (hs.nodup_descendants s h)

/-- The parent links that are left lead where they led. -/
theorem Sound.prunes_removeChildren (h : Handle) :
    Forest.Prunes s.parent (s.removeChildren h).2.parent (· ∈ s.descendants h) := by
  rcases hs.removeChildren_eq s h with ⟨_, _, hpar, _⟩
  have hmem := hs.mem_descendants s h
  refine ⟨fun x p hx hp => ?_, fun x hx => by rw [hpar, if_pos hx],
    fun x hx => by rw [hpar, if_neg hx]⟩
  rcases (hmem p).mp hp with ⟨c, hc, hu⟩
  exact (hmem x).mpr ⟨c, hc, (Under.of_up hx).trans hu⟩

theorem Sound.children_removeChildren (h x : Handle) :
    (s.removeChildren h).2.children x =
      if x ∈ s.descendants h ∨ x = h then [] else s.children x := by
  rcases hs.removeChildren_eq s h with ⟨_, _, _, hlists⟩
  rw [children, Forest.kids_eq, hlists, HandleMap.get_erase, children, Forest.kids_eq]
  by_cases hx : x ∈ s.descendants h
  · simp only [hx, if_true, true_or, Option.getD_none]
  · by_cases hxh : x = h
    · simp only [hxh, if_true, or_true, ite_self, Option.getD_none]
    · simp only [hx, hxh, Ne.symm hxh, if_false, or_self]

/-- A child that goes is a child of the node, or its parent goes as well. -/
theorem Sound.child_stays (h q c : Handle) (hq : q ∉ s.descendants h) (hqh : q ≠ h)
    (hc : s.parent c = some q) : c ∉ s.descendants h := by
  rw [hs.mem_descendants]
  rintro ⟨v, hv, hu⟩
  rcases (under_iff_up c v).mp hu with rfl | ⟨p, hp, hpv⟩
  · rw [(hs.tree.mem_kids h c).mp hv, Option.some.injEq] at hc
    exact hqh hc.symm
  · rw [hc, Option.some.injEq] at hp
    exact hq ((hs.mem_descendants s h q).mpr ⟨v, hv, hp ▸ hpv⟩)

/-- Forgetting what is below a node is a cut. -/
theorem Sound.cuts_removeChildren (h : Handle) :
    Cuts s (s.removeChildren h).2 (· ∈ s.descendants h) := by
  rcases hs.removeChildren_eq s h with ⟨_, hroot, _, hlists⟩
  have hprunes := hs.prunes_removeChildren s h
  have hkids := hs.children_removeChildren s h
  have htop : ∀ r, s.root = some r → r ∉ s.descendants h := by
    intro r hr hm
    rcases (hs.mem_descendants s h r).mp hm with ⟨c, hc, hu⟩
    rw [Forest.eq_of_under_top (hs.tree.root_up r hr) hu] at hc
    exact hs.tree.root_ne r h ((hs.tree.mem_kids h r).mp hc) hr
  have hcmem : ∀ q c, c ∈ (s.removeChildren h).2.children q ↔
      (s.removeChildren h).2.parent c = some q := by
    intro q c
    rw [hkids]
    by_cases hq : q ∈ s.descendants h ∨ q = h
    · rw [if_pos hq]
      refine iff_of_false List.not_mem_nil fun hc => ?_
      rcases hprunes.up_of_up c q hc with ⟨hup, hg⟩
      rcases hq with hq | rfl
      · exact hg (hprunes.down c q hup hq)
      · exact hg ((hs.mem_descendants s q c).mpr ⟨c, (hs.tree.mem_kids q c).mpr hup, Under.refl c⟩)
    · rw [if_neg hq, hs.tree.mem_kids]
      rw [not_or] at hq
      refine ⟨fun hc => ?_, fun hc => (hprunes.up_of_up c q hc).1⟩
      rw [hprunes.kept c (hs.child_stays s h q c hq.1 hq.2 hc), hc]
  have hasc : ∀ q, Handle.Ascending ((s.removeChildren h).2.children q) := by
    intro q
    rw [hkids]
    by_cases hq : q ∈ s.descendants h ∨ q = h
    · rw [if_pos hq]
      exact List.Pairwise.nil
    · rw [if_neg hq]
      exact hs.ascending q
  have htree := hprunes.isTree s.root s.children _ hs.tree htop hcmem fun q => (hasc q).nodup
  refine ⟨⟨hroot ▸ htree, hasc, fun q hq => ?_⟩, hroot, hprunes, htop⟩
  rcases (HandleMap.contains_iff _ q).mp hq with ⟨list, hlist⟩
  rw [hlists, HandleMap.get_erase] at hlist
  by_cases hqout : q ∈ s.descendants h
  · rw [if_pos hqout] at hlist
    exact absurd hlist (by simp only [reduceCtorEq, not_false_eq_true])
  rw [if_neg hqout] at hlist
  by_cases hqh : h = q
  · rw [if_pos hqh] at hlist
    exact absurd hlist (by simp only [reduceCtorEq, not_false_eq_true])
  rw [if_neg hqh] at hlist
  rw [contains_iff, hroot, hprunes.kept q hqout]
  exact (s.contains_iff q).mp (hs.owned q ((HandleMap.contains_iff _ q).mpr ⟨list, hlist⟩))

/-- Forgetting what is below a node returns it in pre-order. -/
theorem Sound.removeChildren_forgets (h : Handle) :
    (s.removeChildren h).1 = s.descendants h ∧
      Forgets s (s.removeChildren h).1 (s.removeChildren h).2 := by
  have hout := (hs.removeChildren_eq s h).1
  exact ⟨hout, hout ▸ Cuts.forgets s _ _ (hs.cuts_removeChildren s h) hs⟩

/-- Removing the root leaves nothing, because every node lies under it. -/
theorem Sound.empty_forgets (r : Handle) (hr : s.root = some r) :
    Forgets s (r :: s.descendants r) empty := by
  have hout : ∀ x, x ∉ r :: s.descendants r → s.contains x = false := by
    intro x hx
    rw [← Bool.not_eq_true, contains_iff_held]
    intro hheld
    rcases hs.tree.held_under_root x hheld with ⟨r', hr', hu⟩
    rw [hr, Option.some.injEq] at hr'
    exact hx ((hs.mem_subtree s r x).mpr (hr' ▸ hu))
  have hempty : ∀ x, empty.contains x = false := fun x =>
    (empty.not_contains_iff x).mpr ⟨by simp only [empty, reduceCtorEq, ne_eq, not_false_eq_true],
      parent_empty x⟩
  refine ⟨fun x _ => hempty x, fun x hx => ?_, fun x hx => ?_, fun x hx => ?_⟩
  · rw [hempty, hout x hx]
  · rw [parent_empty, ((s.not_contains_iff x).mp (hout x hx)).2]
  · rw [hs.children_of_untracked s x (hout x hx), List.filter_nil]
    exact (sound_ofRoot none).children_of_untracked _ x (hempty x)

/-- Removing a node returns it and what is below it in pre-order, and nothing
    if it is not tracked. -/
theorem Sound.remove_forgets (h : Handle) :
    (s.remove h).1 = (if s.contains h then h :: s.descendants h else []) ∧
      Forgets s (s.remove h).1 (s.remove h).2 := by
  cases hh : s.contains h with
  | false =>
      have hself : s.remove h = ([], s) := by simp only [remove, hh, Bool.not_false, if_true]
      rw [hself, if_neg Bool.false_ne_true]
      refine ⟨rfl, fun x hx => absurd hx List.not_mem_nil, fun _ _ => rfl, fun _ _ => rfl,
        fun x _ => ?_⟩
      simp only [List.not_mem_nil, not_false_eq_true, decide_true, List.filter_true]
  | true =>
      rw [if_pos rfl]
      by_cases hroot : s.root = some h
      · have hall : s.remove h = (h :: s.descendants h, empty) := by
          simp only [remove, hh, Bool.not_true, Bool.false_eq_true, if_false, hroot, if_true]
        rw [hall]
        exact ⟨rfl, hs.empty_forgets s h hroot⟩
      · rcases ((s.contains_iff h).mp hh).resolve_left hroot with ⟨p, hp⟩
        rcases hs.cuts_remove_tracked s p h hp hroot with ⟨hcut, hw⟩
        have hout : (s.remove h).1 = h :: s.descendants h := by
          refine hw.unique _ _ _ (Walk.visit h [] _ ?_)
          rw [List.append_nil]
          exact hs.walk_descendants s h
        refine ⟨hout, hout ▸ Cuts.forgets s _ _ (hcut.congr_gone fun x => ?_) hs⟩
        exact hs.mem_subtree s h x

/-- Whatever is removed, the record stays sound. -/
theorem Sound.remove_sound (h : Handle) : (s.remove h).2.Sound := by
  by_cases hroot : s.root = some h
  · have hh : s.contains h = true := (s.contains_iff h).mpr (Or.inl hroot)
    have hall : s.remove h = (h :: s.descendants h, empty) := by
      simp only [remove, hh, Bool.not_true, Bool.false_eq_true, if_false, hroot, if_true]
    rw [hall]
    exact sound_ofRoot none
  · exact (hs.cuts_remove s h hroot).sound

end Removals

section Insertions

variable (s : Store) (p h : Handle)

/-- Linking a node that its new parent does not list gives it the row that was
    foretold. -/
theorem rowOf?_link (hroot : s.root ≠ some h) (hh : h ∉ s.children p) :
    (s.link p h).rowOf? h = some (s.insertionRow p h) := by
  rw [rowOf?, root_link, if_neg hroot, parent_link, if_pos rfl, Option.bind_some, children_link,
    if_pos rfl]
  exact h.idxOf?_insertInto (s.children p) hh

theorem hangs_link : Hangs s p h (s.link p h) := by
  refine ⟨rfl, ?_, fun x hx => ?_, fun c => ?_, fun x hx => ?_⟩
  · rw [parent_link, if_pos rfl]
  · rw [parent_link, if_neg (Ne.symm hx)]
  · rw [children_link, if_pos rfl, Handle.mem_insertInto]
  · rw [children_link, if_neg (Ne.symm hx)]

variable (hs : s.Sound) (hp : s.contains p = true)

include hs hp

/-- A new node is inserted at the row that was foretold. -/
theorem Sound.insert_hangs (hh : s.contains h = false) :
    ∃ t, s.insert p h = .ok (s.insertionRow p h, t) ∧ t.Sound ∧
      t.rowOf? h = some (s.insertionRow p h) ∧ Hangs s p h t := by
  rcases (s.not_contains_iff h).mp hh with ⟨hroot, hnone⟩
  refine ⟨s.link p h, ?_, hs.link_new s p h hp hh, s.rowOf?_link p h hroot fun hm => ?_,
    s.hangs_link p h⟩
  · simp only [insert, hp, hh, Bool.not_true, Bool.false_eq_true, if_false]
  · rw [hs.tree.mem_kids, hnone] at hm
    exact absurd hm (by simp only [reduceCtorEq, not_false_eq_true])

/-- A node outside of whose subtree there is a tracked node is not the root. -/
theorem Sound.root_ne_of_outside (hph : ¬ Under s.parent p h) : s.root ≠ some h := by
  intro hr
  rcases hs.tree.held_under_root p ((s.contains_iff_held p).mp hp) with ⟨r, hr', hu⟩
  rw [hr, Option.some.injEq] at hr'
  exact hph (hr' ▸ hu)

/-- A node that was taken out is put in again at the row that was foretold. A
    node that was not tracked is put in like a new one. -/
theorem Sound.move_hangs (hne : p ≠ h) (hout : p ∉ s.descendants h) :
    ∃ t, (s.detach h).2.attach p h = .ok ((s.detach h).2.insertionRow p h, t) ∧ t.Sound ∧
      t.rowOf? h = some ((s.detach h).2.insertionRow p h) ∧ Hangs (s.detach h).2 p h t := by
  have hph : ¬ Under s.parent p h := by
    rw [← hs.mem_subtree s h p, List.mem_cons, not_or]
    exact ⟨hne, hout⟩
  have hroot := hs.root_ne_of_outside s p h hp hph
  have hfree : (s.detach h).2.parents.contains h = false := by
    rw [← Bool.not_eq_true, HandleMap.contains_iff]
    rintro ⟨q, hq⟩
    have hnone := s.parent_detach h h
    rw [if_pos rfl, parent, hq] at hnone
    exact absurd hnone (by simp only [reduceCtorEq, not_false_eq_true])
  have hattach : (s.detach h).2.attach p h =
      .ok ((s.detach h).2.insertionRow p h, (s.detach h).2.link p h) := by
    simp only [attach, hfree, Bool.false_eq_true, if_false]
  -- Taken out, the node is in no list; if it was not tracked, it never was.
  have hlisted : h ∉ (s.detach h).2.children p ∧ ((s.detach h).2.link p h).Sound := by
    cases hq : s.parent h with
    | some q =>
        refine ⟨fun hm => ?_, hs.link_moved s p h q hp hq hph⟩
        exact ((hs.mem_children_detach s q h hq p h).mp hm).1 rfl
    | none =>
        have hself : (s.detach h).2 = s := by simp only [detach, hq]
        rw [hself]
        refine ⟨fun hm => ?_, hs.link_new s p h hp ((s.not_contains_iff h).mpr ⟨hroot, hq⟩)⟩
        rw [hs.tree.mem_kids, hq] at hm
        exact absurd hm (by simp only [reduceCtorEq, not_false_eq_true])
  refine ⟨_, hattach, hlisted.2, ?_, (s.detach h).2.hangs_link p h⟩
  exact (s.detach h).2.rowOf?_link p h ((s.root_detach h).symm ▸ hroot) hlisted.1

end Insertions

/-- A documented mutation of a sound record succeeds and leaves a sound
    record. -/
theorem Op.apply_sound (s : Store) (hs : s.Sound) (op : Op) (hd : op.Documented s) :
    ∃ t, op.apply s = .ok t ∧ t.Sound := by
  cases op with
  | reset root => exact ⟨_, rfl, sound_ofRoot root⟩
  | insert p h =>
      rcases hs.insert_hangs s p h hd.1 hd.2 with ⟨t, ht, hts, _⟩
      exact ⟨t, by rw [apply, ht]; rfl, hts⟩
  | remove h => exact ⟨_, rfl, hs.remove_sound s h⟩
  | removeChildren h => exact ⟨_, rfl, (hs.cuts_removeChildren s h).sound⟩
  | move p h =>
      rcases hs.move_hangs s p h hd.1 hd.2.1 hd.2.2 with ⟨t, ht, hts, _⟩
      exact ⟨t, by rw [apply, ht]; rfl, hts⟩

theorem Kept.sound (s : Store) (hk : Kept s) : s.Sound := by
  induction hk with
  | empty => exact sound_ofRoot none
  | mutated s t op _ hd ht ih =>
      rcases op.apply_sound s ih hd with ⟨u, hu, hus⟩
      rw [ht, Except.ok.injEq] at hu
      exact hu ▸ hus

/-- A record that is kept as documented is sound, and so is what any further
    documented mutation makes of it, none of which faults. A removal returns
    the node and what is below it in pre-order, and forgets just that. An
    insertion, of a new node or of one that was taken out, returns the row
    that was foretold, at which the node is then found, and changes the parent
    of no other node and the children of no other node than the new parent. -/
theorem Kept.upkeep (s : Store) (hk : Kept s) :
    s.check = none ∧
      (∀ op : Op, op.Documented s → ∃ t, op.apply s = .ok t ∧ t.check = none) ∧
      (∀ h, Walk s.children (s.children h) (s.descendants h)) ∧
      (∀ h, (s.remove h).1 = (if s.contains h then h :: s.descendants h else []) ∧
        Forgets s (s.remove h).1 (s.remove h).2) ∧
      (∀ h, (s.removeChildren h).1 = s.descendants h ∧
        Forgets s (s.removeChildren h).1 (s.removeChildren h).2) ∧
      (∀ p h, (Op.insert p h).Documented s →
        ∃ t, s.insert p h = .ok (s.insertionRow p h, t) ∧
          t.rowOf? h = some (s.insertionRow p h) ∧ Hangs s p h t) ∧
      ∀ p h, (Op.move p h).Documented s →
        ∃ t, (s.detach h).2.attach p h = .ok ((s.detach h).2.insertionRow p h, t) ∧
          t.rowOf? h = some ((s.detach h).2.insertionRow p h) ∧ Hangs (s.detach h).2 p h t := by
  have hs := hk.sound
  refine ⟨s.check_eq_none_iff_sound.mpr hs, fun op hd => ?_, hs.walk_descendants s,
    hs.remove_forgets s, hs.removeChildren_forgets s, fun p h hd => ?_, fun p h hd => ?_⟩
  · rcases op.apply_sound s hs hd with ⟨t, ht, hts⟩
    exact ⟨t, ht, t.check_eq_none_iff_sound.mpr hts⟩
  · rcases hs.insert_hangs s p h hd.1 hd.2 with ⟨t, ht, _, hrow, hh⟩
    exact ⟨t, ht, hrow, hh⟩
  · rcases hs.move_hangs s p h hd.1 hd.2.1 hd.2.2 with ⟨t, ht, _, hrow, hh⟩
    exact ⟨t, ht, hrow, hh⟩

/-- A root, its child and its grandchild. -/
def lineOfThree : Store := ((ofRoot (some ⟨1⟩)).link ⟨1⟩ ⟨2⟩).link ⟨2⟩ ⟨3⟩

theorem kept_lineOfThree : Kept lineOfThree := by
  have hroot : Kept (ofRoot (some ⟨1⟩)) := .mutated _ _ (.reset (some ⟨1⟩)) .empty trivial rfl
  have hchild : Kept ((ofRoot (some ⟨1⟩)).link ⟨1⟩ ⟨2⟩) :=
    .mutated _ _ (.insert ⟨1⟩ ⟨2⟩) hroot (by decide +kernel) (by decide +kernel)
  exact .mutated _ _ (.insert ⟨2⟩ ⟨3⟩) hchild (by decide +kernel) (by decide +kernel)

-- Removing the child takes the grandchild along, and the grandchild can be
-- moved to the root.
theorem upkeep_of_lineOfThree :
    lineOfThree.check = none ∧ Forgets lineOfThree [⟨2⟩, ⟨3⟩] (lineOfThree.remove ⟨2⟩).2 ∧
      ∃ t, (lineOfThree.detach ⟨3⟩).2.attach ⟨1⟩ ⟨3⟩ = .ok (1, t) ∧ t.rowOf? ⟨3⟩ = some 1 := by
  rcases Kept.upkeep lineOfThree kept_lineOfThree with ⟨hcheck, _, _, hremove, _, _, hmove⟩
  have hout : (lineOfThree.remove ⟨2⟩).1 = [⟨2⟩, ⟨3⟩] := by decide +kernel
  have hrow : (lineOfThree.detach ⟨3⟩).2.insertionRow ⟨1⟩ ⟨3⟩ = 1 := by decide +kernel
  rcases hmove ⟨1⟩ ⟨3⟩ (by decide +kernel) with ⟨t, ht, hat, _⟩
  exact ⟨hcheck, hout ▸ (hremove ⟨2⟩).2, t, hrow ▸ ht, hrow ▸ hat⟩

end Store

end TreeWatch
