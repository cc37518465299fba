import TreeWatch.Proofs.Filling

/-!
# What Removals Return

A removal returns the nodes it forgets, and it is from this list that deletions
are announced. Here the list is compared with the records before and after: it
has every node that went away, once each, and no other.

In the middle of a pass not much is known about a record. A move that is asked
for with a bad place would tie a subtree to itself, and that a pass never asks
for one is the hardest fact about passes. None of it is needed to keep track of
who goes away. All that matters is that a listed node is listed once and under
its recorded parent, and every mutation keeps that up, in whatever order they
are used. A record for which it holds is `Tidy`.

## Main definitions

* `Forest.Parted`: No node is in two lists, or twice in one.
* `Store.Tidy`: What every mutation keeps up.
* `Store.Sheds`: The nodes of a list went away, and no other.
* `Store.Lops`: How a list of nodes comes about that a removal drops.
* `Store.Gains`: The nodes that are new satisfy a test, and none went away.

## Theorems

* `Forest.uprootWithin_parted`: What is visited and dropped, tree or not.
* `Store.Tidy.sheds_removeAll`: Removing nodes one after the other.
* `Store.Tidy.gains_insertFilled`: Recording nodes with what is below them.
* `Store.Tidy.sheds_moved`: Taking a node out and putting it in again.
-/

namespace TreeWatch

namespace Forest

/-- No node is listed twice in a table. -/
structure Parted (table : HandleMap (List Handle)) : Prop where
  nodup : ∀ p, (kids table p).Nodup
  one : ∀ p q c, c ∈ kids table p → c ∈ kids table q → p = q

theorem mem_kids_erase (table : HandleMap (List Handle)) (h p c : Handle) :
    c ∈ kids (table.erase h) p ↔ h ≠ p ∧ c ∈ kids table p := by
  rw [kids_erase]
  by_cases hp : h = p
  · simp only [hp, if_true, List.not_mem_nil, ne_eq, not_true_eq_false, false_and]
  · simp only [hp, if_false, ne_eq, not_false_eq_true, true_and]

theorem Parted.erase (table : HandleMap (List Handle)) (hp : Parted table) (h : Handle) :
    Parted (table.erase h) := by
  refine ⟨fun p => ?_, fun p q c hpc hqc => ?_⟩
  · rw [kids_erase]
    split
    · exact List.nodup_nil
    · exact hp.nodup p
  · exact hp.one p q c ((mem_kids_erase table h p c).mp hpc).2
      ((mem_kids_erase table h q c).mp hqc).2

/-- The walk that drops child lists visits no node twice and drops the lists of
    the visited nodes. What it visits besides its roots it found in one of
    these lists. -/
theorem uprootWithin_parted (bound : Nat) (roots : List Handle) (table : HandleMap (List Handle))
    (hp : Parted table) (hnd : roots.Nodup) (hfree : ∀ r ∈ roots, ∀ p, r ∉ kids table p) :
    (uprootWithin bound roots table).1.Nodup ∧
      (∀ x ∈ (uprootWithin bound roots table).1,
        x ∈ roots ∨ ∃ p ∈ (uprootWithin bound roots table).1, x ∈ kids table p) ∧
      ∀ x, (uprootWithin bound roots table).2[x]? =
        if x ∈ (uprootWithin bound roots table).1 then none else table[x]? := by
  induction bound generalizing roots table with
  | zero =>
      refine ⟨List.nodup_nil, fun x hx => absurd hx List.not_mem_nil, fun x => ?_⟩
      simp only [uprootWithin, List.not_mem_nil, if_false]
  | succ bound ih =>
      cases roots with
      | nil =>
          refine ⟨List.nodup_nil, fun x hx => absurd hx List.not_mem_nil, fun x => ?_⟩
          simp only [uprootWithin, List.not_mem_nil, if_false]
      | cons h rest =>
          rcases List.nodup_cons.mp hnd with ⟨hh, hrest⟩
          have hhfree := hfree h List.mem_cons_self
          have hdisjoint : ∀ c ∈ kids table h, ∀ r ∈ rest, c ≠ r := by
            rintro c hc r hr rfl
            exact hfree c (List.mem_cons_of_mem h hr) h hc
          have hnd' : (kids table h ++ rest).Nodup :=
            List.nodup_append.mpr ⟨hp.nodup h, hrest, hdisjoint⟩
          have hfree' : ∀ r ∈ kids table h ++ rest, ∀ p, r ∉ kids (table.erase h) p := by
            intro r hr p hm
            rcases (mem_kids_erase table h p r).mp hm with ⟨hne, hm⟩
            rcases List.mem_append.mp hr with hr | hr
            · exact hne (hp.one h p r hr hm)
            · exact hfree r (List.mem_cons_of_mem h hr) p hm
          rcases ih _ _ (hp.erase table h) hnd' hfree' with ⟨hvisited, hfound, hleft⟩
          rw [uprootWithin]
          generalize uprootWithin bound (kids table h ++ rest) (table.erase h) = done
            at hvisited hfound hleft
          -- The first root is not found again, since no list has it.
          have hnew : h ∉ done.1 := by
            intro hm
            rcases hfound h hm with hm | ⟨p, _, hm⟩
            · rcases List.mem_append.mp hm with hm | hm
              · exact hhfree h hm
              · exact hh hm
            · exact hhfree p ((mem_kids_erase table h p h).mp hm).2
          refine ⟨List.nodup_cons.mpr ⟨hnew, hvisited⟩, fun x hx => ?_, fun x => ?_⟩
          · rcases List.mem_cons.mp hx with rfl | hx
            · exact Or.inl List.mem_cons_self
            · rcases hfound x hx with hm | ⟨p, hpm, hm⟩
              · rcases List.mem_append.mp hm with hm | hm
                · exact Or.inr ⟨h, List.mem_cons_self, hm⟩
                · exact Or.inl (List.mem_cons_of_mem h hm)
              · exact Or.inr ⟨p, List.mem_cons_of_mem h hpm, ((mem_kids_erase table h p x).mp hm).2⟩
          · simp only [hleft, HandleMap.get_erase, List.mem_cons]
            by_cases hx : x ∈ done.1
            · simp only [hx, if_true, or_true]
            · by_cases hxh : x = h
              · simp only [hxh, if_true, true_or, ite_self]
              · simp only [hx, hxh, Ne.symm hxh, if_false, false_or]

end Forest

namespace Store

/-- A listed node is listed once and under its recorded parent, the root has no
    parent, and without a root nothing is recorded. -/
structure Tidy (s : Store) : Prop where
  up : ∀ p c, c ∈ s.children p → s.parent c = some p
  nodup : ∀ p, (s.children p).Nodup
  root_up : ∀ r, s.root = some r → s.parent r = none
  rooted : ∀ h p, s.parent h = some p → s.root ≠ none

theorem Sound.tidy (s : Store) (hs : s.Sound) : s.Tidy := by
  refine ⟨fun p c => (hs.tree.mem_kids p c).mp, hs.tree.nodup, hs.tree.root_up, fun h p hp hr => ?_⟩
  exact Option.some_ne_none p (hp.symm.trans (hs.tree.up_of_rootless hr h))

theorem tidy_ofRoot (root : Option Handle) : (ofRoot root).Tidy := (sound_ofRoot root).tidy

/-- The nodes of `out` went away, each of them once, and no other. -/
structure Sheds (s : Store) (out : List Handle) (t : Store) : Prop where
  tidy : t.Tidy
  root : t.root = s.root
  nodup : out.Nodup
  held : ∀ x ∈ out, s.contains x = true
  left : ∀ x, t.contains x = true ↔ s.contains x = true ∧ x ∉ out

/-- From `s` to `t` the nodes of `out` lost their links and their lists. They are
    `h` and nodes that other nodes of `out` list. -/
structure Lops (s : Store) (h : Handle) (out : List Handle) (t : Store) : Prop where
  nodup : out.Nodup
  first : h ∈ out
  found : ∀ x ∈ out, x = h ∨ ∃ q ∈ out, x ∈ s.children q
  root : t.root = s.root
  up : ∀ x, t.parent x = if x ∈ out then none else s.parent x
  kids : ∀ q c, c ∈ t.children q → q ∉ out ∧ c ≠ h ∧ c ∈ s.children q
  apart : ∀ q, (t.children q).Nodup

/-- No node went away, and those that are new satisfy the test. -/
structure Gains (s : Store) (isNew : Handle → Prop) (t : Store) : Prop where
  tidy : t.Tidy
  kept : ∀ x, s.contains x = true → t.contains x = true
  new : ∀ x, t.contains x = true → s.contains x = true ∨ isNew x

section Compositions

variable (s t u : Store)

theorem Sheds.refl (hs : s.Tidy) : Sheds s [] s := by
  refine ⟨hs, rfl, List.nodup_nil, fun x hx => absurd hx List.not_mem_nil, fun x => ?_⟩
  simp only [List.not_mem_nil, not_false_eq_true, and_true]

theorem Sheds.trans (out out' : List Handle) (h : Sheds s out t) (h' : Sheds t out' u) :
    Sheds s (out ++ out') u := by
  have hdisjoint : ∀ x ∈ out, ∀ y ∈ out', x ≠ y := by
    rintro x hx y hy rfl
    exact ((h.left x).mp (h'.held x hy)).2 hx
  refine ⟨h'.tidy, h'.root.trans h.root, List.nodup_append.mpr ⟨h.nodup, h'.nodup, hdisjoint⟩,
    fun x hx => ?_, fun x => ?_⟩
  · rcases List.mem_append.mp hx with hx | hx
    · exact h.held x hx
    · exact ((h.left x).mp (h'.held x hx)).1
  · rw [h'.left, h.left, List.mem_append, not_or, and_assoc]

variable (isNew : Handle → Prop)

theorem Gains.refl (hs : s.Tidy) : Gains s isNew s := ⟨hs, fun _ hx => hx, fun _ hx => Or.inl hx⟩

theorem Gains.trans (h : Gains s isNew t) (h' : Gains t isNew u) : Gains s isNew u := by
  refine ⟨h'.tidy, fun x hx => h'.kept x (h.kept x hx), fun x hx => ?_⟩
  rcases h'.new x hx with hx | hx
  · exact h.new x hx
  · exact Or.inr hx

-- Any number of mutations none of which loses a node.
theorem gains_foldl (f : Store → Handle → Store) (hs : s.Tidy) (nodes : List Handle)
    (hf : ∀ s : Store, s.Tidy → ∀ h ∈ nodes, Gains s isNew (f s h)) :
    Gains s isNew (nodes.foldl f s) := by
  induction nodes generalizing s with
  | nil => exact .refl s isNew hs
  | cons h rest ih =>
      have hone := hf s hs h List.mem_cons_self
      refine hone.trans s _ _ isNew (ih (f s h) hone.tidy fun s hs x hx => ?_)
      exact hf s hs x (List.mem_cons_of_mem h hx)

end Compositions

section Mutations

variable (s : Store) (hs : s.Tidy)

include hs

/-- A node that is not listed may be recorded under any node of a record with a
    root. -/
theorem Tidy.link (p h : Handle) (hroot : s.root ≠ none) (hh : s.contains h = false) :
    (s.link p h).Tidy := by
  rcases (s.not_contains_iff h).mp hh with ⟨hhroot, hnone⟩
  have hfresh : ∀ q, h ∉ s.children q := by
    intro q hm
    exact absurd (hnone.symm.trans (hs.up q h hm)) (by simp only [reduceCtorEq, not_false_eq_true])
  refine ⟨fun q c hc => ?_, fun q => ?_, fun r hr => ?_, fun _ _ _ => hroot⟩
  · rw [children_link] at hc
    rw [parent_link]
    by_cases hq : p = q
    · rw [if_pos hq, Handle.mem_insertInto] at hc
      rcases hc with rfl | hc
      · rw [if_pos rfl, hq]
      · have hne : h ≠ c := fun he => hfresh p (he ▸ hc)
        rw [if_neg hne, hs.up p c hc, hq]
    · rw [if_neg hq] at hc
      have hne : h ≠ c := fun he => hfresh q (he ▸ hc)
      rw [if_neg hne, hs.up q c hc]
  · rw [children_link]
    by_cases hq : p = q
    · rw [if_pos hq, Handle.insertInto_eq]
      have hsplit := List.takeWhile_append_dropWhile (p := (· < h)) (l := s.children p)
      have hnd := hs.nodup p
      rw [← hsplit] at hnd
      refine (List.perm_middle.nodup_iff).mpr (List.nodup_cons.mpr ⟨fun hm => hfresh p ?_, hnd⟩)
      exact hsplit ▸ hm
    · rw [if_neg hq]
      exact hs.nodup q
  · have hne : h ≠ r := fun he => hhroot (he ▸ hr)
    rw [parent_link, if_neg hne]
    exact hs.root_up r hr

/-- A node that is not tracked is recorded under a tracked one. -/
theorem Tidy.gains_link (p h : Handle) (hp : s.contains p = true) (hh : s.contains h = false) :
    Gains s (· = h) (s.link p h) := by
  have hroot : s.root ≠ none := by
    rcases (s.contains_iff p).mp hp with hr | ⟨q, hq⟩
    · rw [hr]
      exact Option.some_ne_none p
    · exact hs.rooted p q hq
  have hcontains : ∀ x, (s.link p h).contains x = true ↔ s.contains x = true ∨ x = h := by
    intro x
    rw [contains_link]
    exact or_comm
  exact ⟨hs.link s p h hroot hh, fun x hx => (hcontains x).mpr (Or.inl hx),
    fun x => (hcontains x).mp⟩

/-- What a snapshot shows below a node is filled in. -/
theorem Tidy.gains_populate (h : Handle) (fill : Snapshot) :
    Gains s (· ∈ fill.descendants h) (s.populate h fill) := by
  refine gains_foldl s _ _ hs _ fun s hs x hx => ?_
  cases fill.parent x with
  | none => exact .refl s _ hs
  | some p =>
      dsimp only
      by_cases hfits : (!s.contains x && s.contains p) = true
      · rw [if_pos hfits]
        rw [Bool.and_eq_true, Bool.not_eq_true'] at hfits
        rcases hs.gains_link s p x hfits.2 hfits.1 with ⟨htidy, hkept, hnew⟩
        refine ⟨htidy, hkept, fun y hy => (hnew y hy).imp_right ?_⟩
        rintro rfl
        exact hx
      · rw [if_neg hfits]
        exact .refl s _ hs

/-- Nodes are recorded with all that a snapshot shows below them. -/
theorem Tidy.gains_insertFilled (parent : Handle) (handles : List Handle) (fill : Snapshot)
    (t : Store) (hok : s.insertFilled parent handles fill = .ok t) :
    Gains s (fun x => ∃ h ∈ handles, x = h ∨ x ∈ fill.descendants h) t := by
  induction handles generalizing s with
  | nil =>
      simp only [insertFilled, List.foldlM_nil, pure, Except.pure, Except.ok.injEq] at hok
      rw [← hok]
      exact .refl s _ hs
  | cons h rest ih =>
      rw [insertFilled, List.foldlM_cons] at hok
      by_cases hp : s.contains parent = true
      · cases hh : s.contains h with
        | true =>
            simp only [insert, hp, hh, Bool.not_true, Bool.false_eq_true, if_false, if_true, bind,
              Except.bind, reduceCtorEq] at hok
        | false =>
            simp only [insert, hp, hh, Bool.not_true, Bool.false_eq_true, if_false, bind,
              Except.bind, pure, Except.pure] at hok
            have hlink := hs.gains_link s parent h hp hh
            have hfill := hlink.tidy.gains_populate _ h fill
            have hrest := ih ((s.link parent h).populate h fill) hfill.tidy hok
            refine ⟨hrest.tidy, fun x hx => hrest.kept x (hfill.kept x (hlink.kept x hx)),
              fun x hx => ?_⟩
            rcases hrest.new x hx with hx | ⟨g, hg, hx⟩
            · rcases hfill.new x hx with hx | hx
              · exact (hlink.new x hx).imp_right fun he => ⟨h, List.mem_cons_self, Or.inl he⟩
              · exact Or.inr ⟨h, List.mem_cons_self, Or.inr hx⟩
            · exact Or.inr ⟨g, List.mem_cons_of_mem h hg, hx⟩
      · simp only [insert, hp, Bool.not_false, if_true, bind, Except.bind, reduceCtorEq] at hok

section Removals

variable (p h : Handle) (hp : s.parent h = some p)

include hp

theorem Tidy.mem_children_detach (q c : Handle) :
    c ∈ (s.detach h).2.children q ↔ c ≠ h ∧ c ∈ s.children q := by
  rw [s.children_detach p h q hp]
  by_cases hq : p = q
  · rw [if_pos hq, (hs.nodup p).mem_erase_iff, hq]
  · rw [if_neg hq]
    refine ⟨fun hc => ⟨?_, hc⟩, fun hc => hc.2⟩
    rintro rfl
    exact hq (Option.some.inj (hp.symm.trans (hs.up q c hc)))

theorem Tidy.detach : (s.detach h).2.Tidy := by
  refine ⟨fun q c hc => ?_, fun q => ?_, fun r hr => ?_, fun x q hx => ?_⟩
  · rcases (hs.mem_children_detach s p h hp q c).mp hc with ⟨hne, hc⟩
    rw [parent_detach, if_neg hne.symm, hs.up q c hc]
  · rw [s.children_detach p h q hp]
    split
    · exact (hs.nodup p).erase h
    · exact hs.nodup q
  · rw [parent_detach]
    split
    · rfl
    · exact hs.root_up r (s.root_detach h ▸ hr)
  · rw [root_detach]
    exact hs.rooted h p hp

-- A node with a parent is not the root.
theorem Tidy.root_ne : s.root ≠ some h := fun hr =>
  absurd ((hs.root_up h hr).symm.trans hp) (Option.some_ne_none p).symm

/-- A removal takes the node out and drops what a walk finds from there. -/
theorem Tidy.lops_remove : Lops s h (s.remove h).1 (s.remove h).2 := by
  have hh : s.contains h = true := (s.contains_iff h).mpr (Or.inr ⟨p, hp⟩)
  have hm := hs.detach s p h hp
  have hparted : Forest.Parted (s.detach h).2.childLists :=
    ⟨hm.nodup, fun a b c ha hb => Option.some.inj ((hm.up a c ha).symm.trans (hm.up b c hb))⟩
  have hfree : ∀ r ∈ [h], ∀ q, r ∉ Forest.kids (s.detach h).2.childLists q := by
    intro r hr q hc
    exact ((hs.mem_children_detach s p h hp q r).mp hc).1 (List.mem_singleton.mp hr)
  rcases Forest.uprootWithin_parted _ [h] _ hparted (List.nodup_singleton h) hfree with
    ⟨hnd, hfound, hleft⟩
  have hremove : s.remove h = (s.detach h).2.prune [h] := by
    rw [remove, hh, Bool.not_true, if_neg Bool.false_ne_true, if_neg (hs.root_ne s p h hp)]
  have hpruned : ∀ x, ((s.detach h).2.prune [h]).2.parent x =
      if x ∈ ((s.detach h).2.prune [h]).1 then none else (s.detach h).2.parent x :=
    fun x => HandleMap.get_eraseAll _ _ x
  -- The walk starts with the node itself.
  have hfirst : h ∈ ((s.detach h).2.prune [h]).1 := by
    rw [prune, Forest.uproot, List.length_singleton, Nat.add_comm, Forest.uprootWithin]
    exact List.mem_cons_self
  have htroot : ((s.detach h).2.prune [h]).2.root = s.root := s.root_detach h
  rw [hremove]
  change (((s.detach h).2.prune [h]).1).Nodup at hnd
  change ∀ x ∈ ((s.detach h).2.prune [h]).1, x ∈ [h] ∨
    ∃ q ∈ ((s.detach h).2.prune [h]).1, x ∈ (s.detach h).2.children q at hfound
  change ∀ x, ((s.detach h).2.prune [h]).2.childLists[x]? =
    if x ∈ ((s.detach h).2.prune [h]).1 then none else (s.detach h).2.childLists[x]? at hleft
  generalize (s.detach h).2.prune [h] = done at *
  have hlists : ∀ q, done.2.children q = if q ∈ done.1 then [] else (s.detach h).2.children q := by
    intro q
    rw [children, Forest.kids_eq, hleft]
    split
    · rfl
    · rw [children, Forest.kids_eq]
  refine ⟨hnd, hfirst, fun x hx => ?_, htroot, fun x => ?_, fun q c hc => ?_, fun q => ?_⟩
  · rcases hfound x hx with hx | ⟨q, hq, hx⟩
    · exact Or.inl (List.mem_singleton.mp hx)
    · exact Or.inr ⟨q, hq, ((hs.mem_children_detach s p h hp q x).mp hx).2⟩
  · rw [hpruned]
    by_cases hx : x ∈ done.1
    · rw [if_pos hx, if_pos hx]
    · have hne : h ≠ x := fun he => hx (he ▸ hfirst)
      rw [if_neg hx, if_neg hx, parent_detach, if_neg hne]
  · rw [hlists] at hc
    by_cases hq : q ∈ done.1
    · rw [if_pos hq] at hc
      exact absurd hc List.not_mem_nil
    · rw [if_neg hq] at hc
      exact ⟨hq, (hs.mem_children_detach s p h hp q c).mp hc⟩
  · rw [hlists]
    split
    · exact List.nodup_nil
    · exact hm.nodup q

/-- What loses its links in this way is tidy and has lost just these nodes. -/
theorem Lops.sheds (out : List Handle) (t : Store) (hl : Lops s h out t) : Sheds s out t := by
  have hheld : ∀ x ∈ out, ∃ q, s.parent x = some q := by
    intro x hx
    rcases hl.found x hx with rfl | ⟨q, _, hx⟩
    · exact ⟨p, hp⟩
    · exact ⟨q, hs.up q x hx⟩
  refine ⟨⟨fun q c hc => ?_, hl.apart, fun r hr => ?_, fun x q hx => ?_⟩, hl.root, hl.nodup,
    fun x hx => (s.contains_iff x).mpr (Or.inr (hheld x hx)), fun x => ?_⟩
  · rcases hl.kids q c hc with ⟨hq, hne, hc⟩
    rw [hl.up, if_neg, hs.up q c hc]
    -- The lister of a dropped node was dropped.
    intro hm
    rcases hl.found c hm with he | ⟨q', hq', hc'⟩
    · exact hne he
    · exact hq (Option.some.inj ((hs.up q' c hc').symm.trans (hs.up q c hc)) ▸ hq')
  · rw [hl.up]
    split
    · rfl
    · exact hs.root_up r (hl.root ▸ hr)
  · rw [hl.root]
    exact hs.rooted h p hp
  · rw [contains_iff, contains_iff, hl.root, hl.up]
    by_cases hx : x ∈ out
    · rcases hheld x hx with ⟨q, hq⟩
      simp only [hx, hs.root_ne s q x hq, if_true, reduceCtorEq, exists_false, or_self,
        not_true_eq_false, and_false]
    · simp only [hx, if_false, not_false_eq_true, and_true]

/-- A node that is not the root goes away with all that is listed below it. -/
theorem Tidy.sheds_remove : Sheds s (s.remove h).1 (s.remove h).2 :=
  (hs.lops_remove s p h hp).sheds s hs p h hp _ _

/-- A node that is taken out and put in again is tracked as before, and so is
    every other node. -/
theorem Tidy.sheds_moved (q : Handle) : Sheds s [] ((s.detach h).2.link q h) := by
  have hm := hs.detach s p h hp
  have hh : (s.detach h).2.contains h = false := by
    rw [not_contains_iff, root_detach, parent_detach, if_pos rfl]
    exact ⟨hs.root_ne s p h hp, rfl⟩
  have htidy := hm.link _ q h (by
    rw [root_detach]
    exact hs.rooted h p hp) hh
  refine ⟨htidy, s.root_detach h, List.nodup_nil, fun x hx => absurd hx List.not_mem_nil,
    fun x => ?_⟩
  rw [contains_link, contains_iff, contains_iff, root_detach, parent_detach]
  simp only [List.not_mem_nil, not_false_eq_true, and_true]
  by_cases hx : h = x
  · subst hx
    simp only [hp, true_or, Option.some.injEq, exists_eq', or_true]
  · simp only [hx, Ne.symm hx, false_or, if_false]

end Removals

/-- Nodes none of which is the root go away one after the other. -/
theorem Tidy.sheds_removeAll (victims : List Handle) (hroot : ∀ v ∈ victims, s.root ≠ some v) :
    Sheds s (s.removeAll victims).1 (s.removeAll victims).2 := by
  have hfold : ∀ (victims : List Handle) (acc : List Handle × Store), Sheds s acc.1 acc.2 →
      (∀ v ∈ victims, s.root ≠ some v) →
      Sheds s (victims.foldl (fun acc h => (acc.1 ++ (acc.2.remove h).1, (acc.2.remove h).2)) acc).1
        (victims.foldl (fun acc h => (acc.1 ++ (acc.2.remove h).1, (acc.2.remove h).2)) acc).2 := by
    intro victims
    induction victims with
    | nil => exact fun _ h _ => h
    | cons v rest ih =>
        intro acc h hroot
        refine ih _ ?_ fun x hx => hroot x (List.mem_cons_of_mem v hx)
        refine h.trans _ _ _ _ _ ?_
        -- A node below an earlier one is not tracked any more.
        cases hp : acc.2.parent v with
        | some p => exact h.tidy.sheds_remove _ p v hp
        | none =>
            have hgone : acc.2.contains v = false := by
              rw [not_contains_iff, h.root]
              exact ⟨hroot v List.mem_cons_self, hp⟩
            dsimp only
            rw [remove, hgone, Bool.not_false, if_pos rfl]
            exact .refl _ h.tidy
  exact hfold victims ([], s) (.refl s hs) hroot

end Mutations

end Store

end TreeWatch
