import TreeWatch.Proofs.Capture

/-!
# Left and Right in a Tree

Of two nodes, neither of which lies under the other, one is left of the other: the
ways up from them meet at a node, and they come there from two of its children, the
smaller of which is on the left. A walk comes to what is left of a node before it
comes to the node, and to the nodes above it, too. So of any two nodes that it
visits, the later one is not ahead of the other.

## Main definitions

* `Forest.LeftOf`: A node is left of another one.
* `Forest.Ahead`: A node is left of another one or above it.

## Theorems

* `Forest.IsTree.sides`: Two nodes are one above the other or side by side.
* `Forest.IsTree.leftOf_asymm`, `Forest.IsTree.leftOf_apart`: But not in two ways.
* `Snapshot.Proper.pairwise_descendants`: A walk visits nodes in order.
-/

namespace TreeWatch

open Forest (Under under_total under_iff_up under_iff_down)

namespace Forest

variable (up : Handle → Option Handle)

/-- Of two children of one node, the first node lies under the smaller one and the
    second node under the other. -/
def LeftOf (a b : Handle) : Prop :=
  ∃ c d p, up c = some p ∧ up d = some p ∧ c < d ∧ Under up a c ∧ Under up b d

/-- The first node is left of the second one or above it. -/
def Ahead (a b : Handle) : Prop := LeftOf up a b ∨ (b ≠ a ∧ Under up b a)

namespace IsTree

variable {root : Option Handle} {up : Handle → Option Handle} {kids : Handle → List Handle}
  (t : IsTree root up kids)

include t

/-- The ways up from two nodes meet once. -/
theorem meet_unique (a b c d p c' d' p' : Handle) (hc : up c = some p) (hd : up d = some p)
    (hne : c ≠ d) (hc' : up c' = some p') (hd' : up d' = some p') (hne' : c' ≠ d')
    (hac : Under up a c) (hbd : Under up b d) (hac' : Under up a c') (hbd' : Under up b d') :
    c = c' ∧ d = d' := by
  -- From under one of the children at one meeting, both nodes would be under it.
  have hlow : ∀ c d p c' d' p', up c = some p → up d = some p → up c' = some p' →
      up d' = some p' → c' ≠ d' → Under up b d → Under up b d' → Under up c c' → c = c' := by
    intro c d p c' d' p' hc hd hc' hd' hne' hbd hbd' hu
    rcases (under_iff_up c c').mp hu with rfl | ⟨q, hq, hqc⟩
    · rfl
    · rw [hc, Option.some.injEq] at hq
      subst hq
      exact absurd hbd' (t.siblings_apart c' d' p' b hc' hd' hne'
        (hbd.trans ((Under.of_up hd).trans hqc)))
  have hcc : c = c' := by
    rcases under_total hac hac' with hu | hu
    · exact hlow c d p c' d' p' hc hd hc' hd' hne' hbd hbd' hu
    · exact (hlow c' d' p' c d p hc' hd' hc hd hne hbd' hbd hu).symm
  subst hcc
  have hpp : p = p' := Option.some.inj (hc.symm.trans hc')
  subst hpp
  refine ⟨rfl, ?_⟩
  by_contra hdd
  exact t.siblings_apart d d' p b hd hd' hdd hbd hbd'

theorem leftOf_asymm (a b : Handle) (h : LeftOf up a b) : ¬ LeftOf up b a := by
  rcases h with ⟨c, d, p, hc, hd, hlt, hac, hbd⟩
  rintro ⟨d', c', p', hd', hc', hlt', hbd', hac'⟩
  rcases t.meet_unique a b c d p c' d' p' hc hd (ne_of_lt hlt) hc' hd' (ne_of_gt hlt') hac hbd hac'
    hbd' with ⟨rfl, rfl⟩
  exact lt_asymm hlt hlt'

-- No node is ahead of itself.
theorem not_ahead_self (a : Handle) : ¬ Ahead up a a := by
  rintro (hleft | ⟨hne, _⟩)
  · exact t.leftOf_asymm a a hleft hleft
  · exact hne rfl

/-- What is left of a node is neither under it nor above it. -/
theorem leftOf_apart (a b : Handle) (h : LeftOf up a b) : ¬ Under up a b ∧ ¬ Under up b a := by
  rcases h with ⟨c, d, p, hc, hd, hlt, hac, hbd⟩
  have hapart := t.siblings_apart c d p
  exact ⟨fun hu => hapart a hc hd (ne_of_lt hlt) hac (hu.trans hbd),
    fun hu => hapart b hc hd (ne_of_lt hlt) (hu.trans hac) hbd⟩

/-- Two nodes of a tree are one under the other or side by side. -/
theorem sides (a b : Handle) (ha : Held root up a) (hb : Held root up b) :
    Under up a b ∨ Under up b a ∨ LeftOf up a b ∨ LeftOf up b a := by
  have hbelow : ∀ top, Under up a top → Under up b top →
      Under up a b ∨ Under up b a ∨ LeftOf up a b ∨ LeftOf up b a := by
    refine t.leaf_induction fun top ih hat hbt => ?_
    rcases (t.under_iff_kid a top).mp hat with rfl | ⟨c, hc, hac⟩
    · exact Or.inr (Or.inl hbt)
    · rcases (t.under_iff_kid b top).mp hbt with rfl | ⟨d, hd, hbd⟩
      · exact Or.inl hat
      · have hcp := (t.mem_kids top c).mp hc
        have hdp := (t.mem_kids top d).mp hd
        rcases lt_trichotomy c d with hlt | rfl | hgt
        · exact Or.inr (Or.inr (Or.inl ⟨c, d, top, hcp, hdp, hlt, hac, hbd⟩))
        · exact ih c hc hac hbd
        · exact Or.inr (Or.inr (Or.inr ⟨d, c, top, hdp, hcp, hgt, hbd, hac⟩))
  rcases t.held_under_root a ha with ⟨r, hr, har⟩
  rcases t.held_under_root b hb with ⟨r', hr', hbr⟩
  rw [hr, Option.some.injEq] at hr'
  exact hbelow r har (hr' ▸ hbr)

/-- Lists of nodes under children of one node, put together in the order of the
    children, are in order if they are so themselves. -/
theorem pairwise_siblings (f : Handle → List Handle) (p : Handle) (cs : List Handle)
    (hasc : Handle.Ascending cs) (hcs : ∀ c ∈ cs, up c = some p)
    (hf : ∀ c ∈ cs, (f c).Pairwise (fun a b => ¬ Ahead up b a) ∧ ∀ x ∈ f c, Under up x c) :
    (cs.flatMap f).Pairwise fun a b => ¬ Ahead up b a := by
  refine List.pairwise_flatMap.mpr ⟨fun c hc => (hf c hc).1, ?_⟩
  refine hasc.imp_of_mem fun {c d} hc hd hlt a ha b hb => ?_
  have hleft : LeftOf up a b :=
    ⟨c, d, p, hcs c hc, hcs d hd, hlt, (hf c hc).2 a ha, (hf d hd).2 b hb⟩
  rintro (hback | ⟨_, hu⟩)
  · exact t.leftOf_asymm a b hleft hback
  · exact (t.leftOf_apart a b hleft).1 hu

end IsTree

-- There is one complete walk from some roots.
theorem walk_unique {kids : Handle → List Handle} (roots out out' : List Handle)
    (h : Walk kids roots out) (h' : Walk kids roots out') : out = out' :=
  (preorder_eq_of_walk roots out h (out.length + out'.length) (Nat.le_add_right _ _)).symm.trans
    (preorder_eq_of_walk roots out' h' _ (Nat.le_add_left _ _))

end Forest

namespace Snapshot.Proper

open Forest (Ahead Walk)

variable (s : Snapshot) (hs : s.Proper)

include hs

/-- What is below a node are its children, each before what is below it. -/
theorem descendants_eq (h : Handle) :
    s.descendants h = (s.children h).flatMap fun c => c :: s.descendants c := by
  have hwalk : ∀ cs : List Handle,
      Walk s.children cs (cs.flatMap fun c => c :: s.descendants c) := by
    intro cs
    induction cs with
    | nil => exact .done
    | cons c cs ih =>
        have hone : Walk s.children [c] (c :: s.descendants c) :=
          .visit c [] _ ((List.append_nil (s.children c)).symm ▸ hs.walk_descendants s c)
        exact Forest.walk_append [c] cs _ _ hone ih
  exact Forest.walk_unique _ _ _ (hs.walk_descendants s h) (hwalk (s.children h))

/-- A walk visits what is below a node in order. -/
theorem pairwise_descendants (h : Handle) :
    (s.descendants h).Pairwise fun a b => ¬ Ahead s.parent b a := by
  revert h
  refine hs.tree.leaf_induction fun h ih => ?_
  rw [hs.descendants_eq]
  refine hs.tree.pairwise_siblings _ h _ (hs.ascending h)
    (fun c hc => (hs.tree.mem_kids h c).mp hc) fun c hc => ⟨?_, fun x hx => ?_⟩
  · refine List.pairwise_cons.mpr ⟨fun x hx => ?_, ih c hc⟩
    rcases (hs.mem_descendants_iff_ne s c x).mp hx with ⟨hne, hu⟩
    rintro (hleft | ⟨_, hback⟩)
    · exact (hs.tree.leftOf_apart x c hleft).1 hu
    · exact hne (hs.tree.under_antisymm x c hu hback)
  · rcases List.mem_cons.mp hx with rfl | hx
    · exact Under.refl x
    · exact ((hs.mem_descendants_iff_ne s c x).mp hx).2

/-- So it does below several children of one node. -/
theorem pairwise_batch (node : Handle) (batch : List Handle) (hasc : Handle.Ascending batch)
    (hbatch : ∀ b ∈ batch, s.parent b = some node) :
    (batch.flatMap s.descendants).Pairwise fun a b => ¬ Ahead s.parent b a :=
  hs.tree.pairwise_siblings _ node batch hasc hbatch fun b _ =>
    ⟨hs.pairwise_descendants s b, fun x hx => ((hs.mem_descendants_iff_ne s b x).mp hx).2⟩

end Snapshot.Proper

end TreeWatch
