import TreeWatch.Proofs.Walk
import TreeWatch.Store.Check

/-!
# Sound Records

What it means that the two tables of a record describe one tree, stated
without reference to how it is checked, and that the check decides it.

A sound record is determined by its root and its parent links: its child lists
are the ascending lists of the nodes with a given parent. So the effect of a
mutation is described by what it does to the parent links, together with the
fact that the result is sound, and `Sound.children_ext` turns that into child
lists and rows wherever those are needed.

The check climbs from each node for at most as many steps as there are parent
links. A path of a tree has no repetition and every node on it but the last
has a link, so no path of a sound record is cut off.

## Main definitions

* `Store.Sound`: The tables of a record describe one tree.

## Theorems

* `Store.climbs_iff`: The bounded climb finds the root when the path is short
  enough.
* `Store.check_eq_none_iff_sound`: The check accepts exactly the sound
  records.
* `Store.Sound.children_ext`: Child lists are determined by parent links.
* `Store.Sound.length_children_lt`: Rows fit a machine word.
-/

namespace TreeWatch

open Forest (Under under_iff_up)

namespace Store

/-- The tables of a record describe one tree: child lists and parent links
    agree and lead to the root, the lists are in order, and only tracked nodes
    have one. -/
structure Sound (s : Store) : Prop where
  tree : Forest.IsTree s.root s.parent s.children
  ascending : ∀ p, Handle.Ascending (s.children p)
  owned : ∀ p, s.childLists.contains p = true → s.contains p = true

theorem contains_iff_held (s : Store) (h : Handle) :
    s.contains h = true ↔ Forest.Held s.root s.parent h :=
  s.contains_iff h

-- The root and the parent links say what is tracked.
theorem contains_congr (s t : Store) (hroot : t.root = s.root)
    (hup : ∀ x, t.parent x = s.parent x) (x : Handle) : t.contains x = s.contains x := by
  rw [Bool.eq_iff_iff, t.contains_iff, s.contains_iff, hroot, hup]

theorem not_contains_iff (s : Store) (h : Handle) :
    s.contains h = false ↔ s.root ≠ some h ∧ s.parent h = none := by
  rw [← Bool.not_eq_true, contains_iff, not_or, ← Option.isSome_iff_exists,
    Option.not_isSome_iff_eq_none]

/-- The tracked nodes in a list: the root and the keys of the parent table. -/
def nodeList (s : Store) : List Handle := s.root.toList ++ s.parents.keys

theorem mem_nodeList (s : Store) (h : Handle) : h ∈ s.nodeList ↔ s.contains h = true := by
  rw [nodeList, List.mem_append, Option.mem_toList, contains_iff,
    Std.ExtTreeMap.mem_keys, Std.ExtTreeMap.mem_iff_contains, HandleMap.contains_iff, parent]

theorem length_nodeList (s : Store) : s.nodeList.length = s.size := by
  rw [nodeList, List.length_append, Std.ExtTreeMap.length_keys, size, Nat.add_comm]
  cases s.root <;> rfl

theorem strictlyAscending_iff (hs : List Handle) :
    strictlyAscending hs = true ↔ Handle.Ascending hs := by
  rw [Handle.Ascending, ← List.isChain_iff_pairwise]
  induction hs with
  | nil => simp only [strictlyAscending, List.isChain_nil]
  | cons a rest ih =>
      cases rest with
      | nil => simp only [strictlyAscending, List.isChain_singleton]
      | cons b rest =>
          rw [strictlyAscending, Bool.and_eq_true, decide_eq_true_eq, List.isChain_cons_cons, ih]

/-- The bounded climb finds the root when the recorded parents lead there and
    no more nodes are on the way than the bound admits. -/
theorem climbs_of_under (s : Store) (hs : s.Sound) (r : Handle) (hr : s.root = some r)
    (bound : Nat) (h : Handle) (hu : Under s.parent h r)
    (hb : Forest.level s.parent h ≤ bound + 1) : s.climbs r bound h = true := by
  induction bound generalizing h with
  | zero =>
      rcases (under_iff_up h r).mp hu with rfl | ⟨p, hp, _⟩
      · rw [climbs, if_pos rfl]
      · have hlt := hs.tree.level_lt h p hp
        have hpos : 0 < Forest.level s.parent p :=
          (Set.ncard_pos).mpr ⟨p, Under.refl p⟩
        omega
  | succ n ih =>
      rw [climbs]
      rcases (under_iff_up h r).mp hu with rfl | ⟨p, hp, hpr⟩
      · rw [if_pos rfl]
      · have hne : h ≠ r := by
          rintro rfl
          exact hs.tree.root_ne h p hp hr
        have hmem : (s.children p).contains h = true :=
          List.contains_iff_mem.mpr ((hs.tree.mem_kids p h).mpr hp)
        have hlt := hs.tree.level_lt h p hp
        rw [if_neg hne]
        simp only [hp, hmem, if_true]
        exact ih p hpr (by omega)

/-- A climb that finds the root has followed recorded parents. -/
theorem under_of_climbs (s : Store) (r : Handle) (bound : Nat) (h : Handle)
    (hc : s.climbs r bound h = true) : Under s.parent h r := by
  induction bound generalizing h with
  | zero =>
      rw [climbs] at hc
      by_cases hr : h = r
      · exact hr ▸ Under.refl h
      · rw [if_neg hr] at hc
        cases hp : s.parent h with
        | none => simp only [hp, Bool.false_eq_true] at hc
        | some p => simp only [hp, ite_self, Bool.false_eq_true] at hc
  | succ n ih =>
      rw [climbs] at hc
      by_cases hr : h = r
      · exact hr ▸ Under.refl h
      · rw [if_neg hr] at hc
        cases hp : s.parent h with
        | none => simp only [hp, Bool.false_eq_true] at hc
        | some p =>
            simp only [hp] at hc
            by_cases hmem : (s.children p).contains h = true
            · rw [if_pos hmem] at hc
              exact (Under.of_up hp).trans (ih p hc)
            · rw [if_neg hmem] at hc
              exact absurd hc Bool.false_ne_true

/-- In a sound record no path is cut off: the bound is one less than the
    number of tracked nodes, and so is the longest path. -/
theorem isReachable_of_sound (s : Store) (hs : s.Sound) (h : Handle)
    (hh : s.contains h = true) : s.isReachable h = true := by
  rcases hs.tree.held_under_root h ((s.contains_iff_held h).mp hh) with ⟨r, hr, hu⟩
  have hlevel := hs.tree.level_le s.nodeList
    (fun x hx => (s.mem_nodeList x).mpr ((s.contains_iff_held x).mpr hx)) h
    ((s.contains_iff_held h).mp hh)
  rw [length_nodeList, size, hr, Option.isSome_some, if_pos rfl] at hlevel
  rw [isReachable, hr]
  exact s.climbs_of_under hs r hr _ h hu hlevel

theorem check_eq_none_iff (s : Store) :
    s.check = none ↔ s.rootViolation = none ∧
      (∀ p list, s.childLists[p]? = some list → s.listViolation p list = none) ∧
      ∀ c p, s.parent c = some p → s.linkViolation c p = none := by
  simp only [check, Option.orElse_eq_orElse, Option.orElse_eq_or, Option.or_eq_none_iff,
    List.findSome?_eq_none_iff, Prod.forall, Std.ExtTreeMap.mem_toList_iff_getElem?_eq_some,
    parent]

theorem listViolation_eq_none_iff (s : Store) (p : Handle) (list : List Handle) :
    s.listViolation p list = none ↔ s.contains p = true ∧ Handle.Ascending list ∧
      ∀ c ∈ list, s.parent c = some p := by
  unfold listViolation
  cases hp : s.contains p with
  | false => simp only [Bool.not_false, if_true, reduceCtorEq, Bool.false_eq_true, false_and]
  | true =>
      cases ha : strictlyAscending list with
      | false =>
          have hno : ¬ Handle.Ascending list := by
            rw [← strictlyAscending_iff, ha]
            exact Bool.false_ne_true
          simp only [Bool.not_true, Bool.false_eq_true, if_false, Bool.not_false, if_true,
            reduceCtorEq, hno, false_and, and_false]
      | true =>
          simp only [Bool.not_true, Bool.false_eq_true, if_false, Option.map_eq_none_iff,
            List.find?_eq_none, ne_eq, decide_not, Bool.not_eq_eq_eq_not, decide_eq_false_iff_not,
            not_not, (strictlyAscending_iff list).mp ha, true_and]

theorem linkViolation_eq_none_iff (s : Store) (c p : Handle) :
    s.linkViolation c p = none ↔ c ∈ s.children p ∧ s.isReachable c = true := by
  unfold linkViolation
  rw [← List.contains_iff_mem]
  cases (s.children p).contains c <;> cases s.isReachable c <;>
    simp only [Bool.not_true, Bool.not_false, Bool.false_eq_true, if_true, if_false, reduceCtorEq,
      and_false, and_true, and_self]

theorem rootViolation_eq_none_iff (s : Store) :
    s.rootViolation = none ↔ ∀ r, s.root = some r → s.parent r = none := by
  unfold rootViolation
  cases hr : s.root with
  | none => simp only [Option.bind_none, reduceCtorEq, false_implies, implies_true]
  | some r =>
      rw [Option.bind_some]
      by_cases hp : s.parents.contains r = true
      · rcases (HandleMap.contains_iff s.parents r).mp hp with ⟨p, hget⟩
        simp only [hp, if_true, reduceCtorEq, Option.some.injEq, forall_eq', parent, hget]
      · have hget : s.parents[r]? = none := by
          rw [← Option.not_isSome_iff_eq_none, ← Std.ExtTreeMap.contains_eq_isSome_getElem?]
          exact hp
        simp only [hp, if_false, Bool.false_eq_true, Option.some.injEq, forall_eq', parent, hget]

/-- A child list is the list its node has in the table. -/
theorem mem_children_iff (s : Store) (p c : Handle) :
    c ∈ s.children p ↔ ∃ list, s.childLists[p]? = some list ∧ c ∈ list := by
  rw [children, Forest.kids_eq]
  cases s.childLists[p]? with
  | none => simp only [Option.getD_none, List.not_mem_nil, reduceCtorEq, false_and, exists_false]
  | some list => simp only [Option.getD_some, Option.some.injEq, exists_eq_left']

/-- The check accepts exactly the sound records. -/
theorem check_eq_none_iff_sound (s : Store) : s.check = none ↔ s.Sound := by
  rw [check_eq_none_iff, rootViolation_eq_none_iff]
  simp only [listViolation_eq_none_iff, linkViolation_eq_none_iff]
  constructor
  · rintro ⟨hroot, hlists, hlinks⟩
    have hmem : ∀ p c, c ∈ s.children p ↔ s.parent c = some p := by
      intro p c
      constructor
      · intro hc
        rcases (s.mem_children_iff p c).mp hc with ⟨list, hlist, hc⟩
        exact (hlists p list hlist).2.2 c hc
      · exact fun hp => (hlinks c p hp).1
    have hasc : ∀ p, Handle.Ascending (s.children p) := by
      intro p
      rw [children, Forest.kids_eq]
      cases hp : s.childLists[p]? with
      | none => exact List.Pairwise.nil
      | some list => exact (hlists p list hp).2.1
    refine ⟨⟨hroot, hmem, fun p => (hasc p).nodup, fun h p hp => ?_⟩, hasc, fun p hp => ?_⟩
    · -- The bounded climb of the check is a way up to the root.
      have hreach := (hlinks h p hp).2
      unfold isReachable at hreach
      cases hr : s.root with
      | none =>
          rw [hr] at hreach
          exact absurd hreach Bool.false_ne_true
      | some r =>
          rw [hr] at hreach
          exact ⟨r, rfl, s.under_of_climbs r _ h hreach⟩
    · rcases (HandleMap.contains_iff s.childLists p).mp hp with ⟨list, hlist⟩
      exact (hlists p list hlist).1
  · intro hs
    refine ⟨hs.tree.root_up, fun p list hlist => ?_, fun c p hp => ?_⟩
    · have hch : s.children p = list := by rw [children, Forest.kids_eq, hlist, Option.getD_some]
      refine ⟨hs.owned p ((HandleMap.contains_iff _ p).mpr ⟨list, hlist⟩), hch ▸ hs.ascending p, ?_⟩
      exact fun c hc => (hs.tree.mem_kids p c).mp (hch ▸ hc)
    · exact ⟨(hs.tree.mem_kids p c).mpr hp,
        s.isReachable_of_sound hs c ((s.contains_iff c).mpr (Or.inr ⟨p, hp⟩))⟩

theorem parent_ofRoot (root : Option Handle) (h : Handle) : (ofRoot root).parent h = none := by
  simp only [ofRoot, parent, Std.ExtTreeMap.getElem?_empty]

/-- The record of a lone root, or of nothing, is sound. -/
theorem sound_ofRoot (root : Option Handle) : (ofRoot root).Sound := by
  have hparent := parent_ofRoot root
  have hchildren : ∀ h, (ofRoot root).children h = [] := by
    intro h
    simp only [ofRoot, children, Forest.kids, Std.ExtTreeMap.getD_empty]
  refine ⟨⟨fun r _ => hparent r, fun p c => ?_, fun p => ?_, fun h p hp => ?_⟩, fun p => ?_,
    fun p hp => ?_⟩
  · rw [hchildren, hparent]
    simp only [List.not_mem_nil, reduceCtorEq]
  · rw [hchildren]
    exact List.nodup_nil
  · rw [hparent] at hp
    exact absurd hp (by simp only [reduceCtorEq, not_false_eq_true])
  · rw [hchildren]
    exact List.Pairwise.nil
  · simp only [ofRoot, Std.ExtTreeMap.contains_empty, Bool.false_eq_true] at hp

/-- A sound record is determined by its parent links: equal links above a node
    give it the same children. -/
theorem Sound.children_ext (s t : Store) (hs : s.Sound) (ht : t.Sound) (p q : Handle)
    (hup : ∀ c, s.parent c = some p ↔ t.parent c = some q) : s.children p = t.children q := by
  refine Handle.ascending_ext _ _ (hs.ascending p) (ht.ascending q) fun c => ?_
  rw [hs.tree.mem_kids, ht.tree.mem_kids]
  exact hup c

/-- A child list is any ascending list of the nodes with the right parent. -/
theorem Sound.children_eq (s : Store) (hs : s.Sound) (p : Handle) (list : List Handle)
    (hasc : Handle.Ascending list) (hmem : ∀ c, c ∈ list ↔ s.parent c = some p) :
    s.children p = list := by
  refine Handle.ascending_ext _ _ (hs.ascending p) hasc fun c => ?_
  rw [hs.tree.mem_kids, hmem]

/-- A node that is not tracked has no children. -/
theorem Sound.children_of_untracked (s : Store) (hs : s.Sound) (p : Handle)
    (hp : s.contains p = false) : s.children p = [] := by
  refine hs.children_eq _ p [] List.Pairwise.nil fun c => ?_
  refine ⟨fun hc => absurd hc List.not_mem_nil, fun hc => ?_⟩
  have hheld := (s.contains_iff_held p).mpr (hs.tree.held_up c p hc)
  rw [hp] at hheld
  exact absurd hheld Bool.false_ne_true

/-- Rows fit a machine word: a child list never holds its own node. -/
theorem Sound.length_children_lt (s : Store) (hs : s.Sound) (p : Handle) :
    (s.children p).length < Text.wordBound := by
  refine Handle.length_lt_of_nodup _ p (hs.tree.nodup p) fun hmem => ?_
  exact hs.tree.acyclic p p ((hs.tree.mem_kids p p).mp hmem) (Under.refl p)

end Store

end TreeWatch
