import Mathlib.Data.Fintype.Card
import Mathlib.Data.Set.Card
import Mathlib.Logic.Relation
import TreeWatch.Proofs.Order

/-!
# Trees Given by Parent Links

The record, a snapshot and a scene are three representations of one thing: a
finite tree, kept as a parent link for every node but the root and a child
list for every node. What they store differs, but the questions asked about
them are the same, so they are answered here once, for any root, any parent
function and any child function that fit together.

`Under` follows parent links. It is the only notion of position that the
development uses: a subtree is what lies under its root, a path is what a
node lies under. Two facts about it carry most arguments. A node has one
parent, so the nodes it lies under form a chain (`under_total`). And the
links lead to a root without a parent, so they never lead back
(`IsTree.acyclic`).

Handles are finite in number, so a relation without cycles is well-founded.
That gives induction from the leaves (`IsTree.leaf_induction`) and a count of
what lies under a node that shrinks on the way down (`IsTree.weight_lt`). The
count is what the depth bounds of the recursive sweeps are compared with.

## Main definitions

* `Under`: A node is another one or lies below it.
* `IsTree`: A root, a parent function and a child function describe a tree.
* `Held`: A node of a tree.
* `weight`: The number of nodes under a node.
* `level`: The number of nodes that a node lies under.
* `Prunes`: The links that are left when subtrees are taken out.

## Theorems

* `under_iff_up`, `under_iff_kid`: One step from below and one from above.
* `under_total`: The nodes that a node lies under form a chain.
* `Under.mono`: More links, more nodes under a node.
* `under_congr_below`: What lies under a node depends on the links below it.
* `IsTree.acyclic`: A parent does not lie under its child.
* `IsTree.under_antisymm`: Two nodes under each other are one.
* `IsTree.leaf_induction`: Induction from the leaves to the root.
* `IsTree.path_induction`: Induction from the root down a path.
* `IsTree.weight_lt`: A child has fewer nodes under it than its parent.
* `weight_le`: No node has more under it than the tree has nodes.
* `IsTree.level_lt`, `IsTree.level_le`: The same on the way up.
* `IsTree.relink`: A subtree can be put under any node outside of it.
* `Prunes.isTree`: What is left of a tree is a tree.
* `Prunes.under_iff`: A node that is left lies under the same nodes.
-/

namespace TreeWatch

namespace Forest

/-- `Under up h a`: the parent links lead from `h` to `a`, in any number of
    steps. -/
def Under (up : Handle → Option Handle) : Handle → Handle → Prop :=
  Relation.ReflTransGen fun h p => up h = some p

section Links

variable {up up' : Handle → Option Handle}

theorem Under.refl (h : Handle) : Under up h h := Relation.ReflTransGen.refl

theorem Under.trans {h a b : Handle} (hha : Under up h a) (hab : Under up a b) : Under up h b :=
  Relation.ReflTransGen.trans hha hab

theorem Under.of_up {h p : Handle} (hp : up h = some p) : Under up h p :=
  Relation.ReflTransGen.single hp

theorem under_iff_up (h a : Handle) :
    Under up h a ↔ h = a ∨ ∃ p, up h = some p ∧ Under up p a :=
  Relation.ReflTransGen.cases_head_iff

theorem under_iff_down (h a : Handle) :
    Under up h a ↔ h = a ∨ ∃ c, Under up h c ∧ up c = some a := by
  rw [Under, Relation.ReflTransGen.cases_tail_iff, eq_comm]

/-- A node has one parent, so of two nodes it lies under, one lies under the
    other. -/
theorem under_total {h a b : Handle} (ha : Under up h a) (hb : Under up h b) :
    Under up a b ∨ Under up b a :=
  Relation.ReflTransGen.total_of_right_unique
    (fun _ _ _ hp hq => Option.some.inj (hp.symm.trans hq)) ha hb

/-- Nothing is above a node without a parent. -/
theorem eq_of_under_top {r a : Handle} (hr : up r = none) (h : Under up r a) : a = r := by
  rcases (under_iff_up r a).mp h with rfl | ⟨p, hp, _⟩
  · rfl
  · rw [hr] at hp
    exact absurd hp (by simp only [reduceCtorEq, not_false_eq_true])

theorem Under.mono {h a : Handle} (hup : ∀ x p, up x = some p → up' x = some p)
    (hu : Under up h a) : Under up' h a :=
  Relation.ReflTransGen.mono (fun x p hp => hup x p hp) h a hu

/-- Links that agree above a node lead from it to the same nodes. -/
theorem Under.congr {h a : Handle} (hup : ∀ x, Under up h x → up' x = up x)
    (hu : Under up h a) : Under up' h a := by
  induction hu with
  | refl => exact Under.refl h
  | tail hx hp ih => exact ih.trans (Under.of_up ((hup _ hx).trans hp))

/-- What lies under a node does not depend on what the node itself lies
    under. -/
theorem under_congr_below {h : Handle} (hup : ∀ x, x ≠ h → up' x = up x) (x : Handle) :
    Under up' x h ↔ Under up x h := by
  have hmono : ∀ {u v : Handle → Option Handle}, (∀ x, x ≠ h → v x = u x) → Under u x h →
      Under v x h := by
    intro u v huv hu
    induction hu using Relation.ReflTransGen.head_induction_on with
    | refl => exact Under.refl h
    | @head c p hc _ ih =>
        by_cases hch : c = h
        · exact hch ▸ Under.refl c
        · exact (Under.of_up ((huv c hch).trans hc)).trans ih
  exact ⟨hmono fun x hx => (hup x hx).symm, hmono hup⟩

end Links

/-- A root, a parent function and a child function that describe a tree: the
    root has no parent, the two functions agree, no child is listed twice, and
    every node with a parent lies under the root. -/
structure IsTree (root : Option Handle) (up : Handle → Option Handle)
    (kids : Handle → List Handle) : Prop where
  root_up : ∀ r, root = some r → up r = none
  mem_kids : ∀ p c, c ∈ kids p ↔ up c = some p
  nodup : ∀ p, (kids p).Nodup
  rooted : ∀ h p, up h = some p → ∃ r, root = some r ∧ Under up h r

/-- A node of a tree is its root or has a parent. -/
def Held (root : Option Handle) (up : Handle → Option Handle) (h : Handle) : Prop :=
  root = some h ∨ ∃ p, up h = some p

/-- The number of nodes under a node, itself included. -/
noncomputable def weight (up : Handle → Option Handle) (h : Handle) : Nat :=
  {x | Under up x h}.ncard

/-- What lies under a node is a node. -/
theorem held_of_above (root : Option Handle) (up : Handle → Option Handle)
    (h a : Handle) (hu : Under up h a) (ha : Held root up a) : Held root up h := by
  rcases (under_iff_up h a).mp hu with rfl | ⟨p, hp, _⟩
  · exact ha
  · exact Or.inr ⟨p, hp⟩

/-- The number of nodes that a node lies under, itself included. -/
noncomputable def level (up : Handle → Option Handle) (h : Handle) : Nat :=
  {a | Under up h a}.ncard

/-- A node is under itself. -/
theorem weight_pos (up : Handle → Option Handle) (h : Handle) : 0 < weight up h :=
  (Set.ncard_pos).mpr ⟨h, Under.refl h⟩

theorem ncard_le_length (S : Set Handle) (nodes : List Handle) (hall : ∀ x ∈ S, x ∈ nodes) :
    S.ncard ≤ nodes.length := by
  calc S.ncard ≤ {x | x ∈ nodes}.ncard := Set.ncard_le_ncard hall
    _ = nodes.toFinset.card := by
        rw [← Set.ncard_coe_finset]
        congr 1
        ext x
        rw [Finset.mem_coe, List.mem_toFinset, Set.mem_ofPred_eq]
    _ ≤ nodes.length := List.toFinset_card_le nodes

-- A list without repetition counts what it lists.
theorem ncard_eq_length (S : Set Handle) (nodes : List Handle) (hnd : nodes.Nodup)
    (hmem : ∀ x, x ∈ nodes ↔ x ∈ S) : S.ncard = nodes.length := by
  have hset : S = (nodes.toFinset : Set Handle) := by
    ext x
    rw [Finset.mem_coe, List.mem_toFinset, hmem]
  rw [hset, Set.ncard_coe_finset, List.toFinset_card_of_nodup hnd]

/-- Fewer links, fewer nodes under a node. -/
theorem weight_mono (up up' : Handle → Option Handle) (h : Handle)
    (hup : ∀ x p, up' x = some p → up x = some p) : weight up' h ≤ weight up h :=
  Set.ncard_le_ncard fun _ hx => Under.mono hup hx

/-- The nodes under a node are nodes, so a list of all nodes is at least as
    long. -/
theorem weight_le (root : Option Handle) (up : Handle → Option Handle) (nodes : List Handle)
    (hall : ∀ x, Held root up x → x ∈ nodes) (h : Handle) (hh : Held root up h) :
    weight up h ≤ nodes.length :=
  ncard_le_length _ nodes fun x hx => hall x (held_of_above root up x h hx hh)

namespace IsTree

variable {root : Option Handle} {up : Handle → Option Handle} {kids : Handle → List Handle}

theorem held_under_root (t : IsTree root up kids) (h : Handle) (hh : Held root up h) :
    ∃ r, root = some r ∧ Under up h r := by
  rcases hh with hr | ⟨p, hp⟩
  · exact ⟨h, hr, Under.refl h⟩
  · exact t.rooted h p hp

/-- A node with a parent is not the root. -/
theorem root_ne (t : IsTree root up kids) (h p : Handle) (hp : up h = some p) : root ≠ some h := by
  intro hr
  rw [t.root_up h hr] at hp
  exact absurd hp (by simp only [reduceCtorEq, not_false_eq_true])

/-- Without a root no node has a parent. -/
theorem up_of_rootless (t : IsTree root up kids) (hr : root = none) (h : Handle) : up h = none := by
  by_contra hne
  rcases Option.ne_none_iff_exists'.mp hne with ⟨p, hp⟩
  rcases t.rooted h p hp with ⟨r, hr', _⟩
  exact Option.some_ne_none r (hr'.symm.trans hr)

/-- The parent of a node is a node. -/
theorem held_up (t : IsTree root up kids) (h p : Handle) (hp : up h = some p) :
    Held root up p := by
  rcases t.rooted h p hp with ⟨r, hr, hu⟩
  rcases (under_iff_up h r).mp hu with rfl | ⟨q, hq, hqr⟩
  · exact absurd hr (t.root_ne h p hp)
  · rw [hp, Option.some.injEq] at hq
    rw [hq]
    rcases (under_iff_up q r).mp hqr with rfl | ⟨q', hq', _⟩
    · exact Or.inl hr
    · exact Or.inr ⟨q', hq'⟩

/-- What a node lies under are nodes. -/
theorem held_of_under (t : IsTree root up kids) (h a : Handle) (hh : Held root up h)
    (hu : Under up h a) : Held root up a := by
  induction hu with
  | refl => exact hh
  | tail _ hp _ => exact t.held_up _ _ hp

/-- The links never lead back: a parent does not lie under its child. The
    induction runs down the path to the root, which has no parent. A cycle at
    a node would be a cycle at its parent. -/
theorem acyclic (t : IsTree root up kids) (h p : Handle) (hp : up h = some p) :
    ¬ Under up p h := by
  rcases t.rooted h p hp with ⟨r, hr, hu⟩
  induction hu using Relation.ReflTransGen.head_induction_on generalizing p with
  | refl => exact absurd hr (t.root_ne r p hp)
  | @head a c hc _ ih =>
      intro hback
      rw [hc, Option.some.injEq] at hp
      subst hp
      rcases (under_iff_up c a).mp hback with rfl | ⟨d, hd, hda⟩
      · exact ih c hc (Under.refl c)
      · exact ih d hd (hda.trans (Under.of_up hc))

theorem under_antisymm (t : IsTree root up kids) (h a : Handle) (hha : Under up h a)
    (hah : Under up a h) : h = a := by
  rcases (under_iff_up h a).mp hha with rfl | ⟨p, hp, hpa⟩
  · rfl
  · exact absurd (hpa.trans hah) (t.acyclic h p hp)

theorem under_iff_kid (t : IsTree root up kids) (h a : Handle) :
    Under up h a ↔ h = a ∨ ∃ c ∈ kids a, Under up h c := by
  rw [under_iff_down]
  constructor
  · rintro (rfl | ⟨c, hc, hca⟩)
    · exact Or.inl rfl
    · exact Or.inr ⟨c, (t.mem_kids a c).mpr hca, hc⟩
  · rintro (rfl | ⟨c, hca, hc⟩)
    · exact Or.inl rfl
    · exact Or.inr ⟨c, hc, (t.mem_kids a c).mp hca⟩

/-- A child does not lie under another child of the same parent. -/
theorem sibling_not_under (t : IsTree root up kids) (p c d : Handle) (hc : c ∈ kids p)
    (hd : d ∈ kids p) (hne : c ≠ d) : ¬ Under up c d := by
  intro hu
  rcases (under_iff_up c d).mp hu with rfl | ⟨q, hq, hqd⟩
  · exact hne rfl
  · rw [(t.mem_kids p c).mp hc, Option.some.injEq] at hq
    subst hq
    exact t.acyclic d p ((t.mem_kids p d).mp hd) hqd

/-- No node lies under two children of the same parent. -/
theorem siblings_apart (t : IsTree root up kids) (c d p x : Handle) (hc : up c = some p)
    (hd : up d = some p) (hne : c ≠ d) (hxc : Under up x c) : ¬ Under up x d := by
  intro hxd
  have hc' := (t.mem_kids p c).mpr hc
  have hd' := (t.mem_kids p d).mpr hd
  rcases under_total hxc hxd with hcd | hdc
  · exact t.sibling_not_under p c d hc' hd' hne hcd
  · exact t.sibling_not_under p d c hd' hc' hne.symm hdc

/-- The relation between a child and its parent is well-founded, because it
    has no cycles and there are finitely many handles. -/
theorem wellFounded_up (t : IsTree root up kids) : WellFounded fun c p => up c = some p := by
  have hirr : Std.Irrefl (Relation.TransGen fun c p => up c = some p) := ⟨fun a ha => by
    rcases Relation.TransGen.head'_iff.mp ha with ⟨b, hb, hba⟩
    exact t.acyclic a b hb hba⟩
  have hsub : Subrelation (fun c p => up c = some p)
      (Relation.TransGen fun c p => up c = some p) := by
    intro c p hcp
    exact Relation.TransGen.single hcp
  exact hsub.wf (Finite.wellFounded_of_trans_of_irrefl _)

/-- Induction from the leaves: what holds of a node as soon as it holds of its
    children holds of every node. -/
theorem leaf_induction {P : Handle → Prop} (t : IsTree root up kids)
    (step : ∀ h, (∀ c ∈ kids h, P c) → P h) (h : Handle) : P h := by
  induction h using t.wellFounded_up.induction with
  | h h ih => exact step h fun c hc => ih c ((t.mem_kids h c).mp hc)

/-- Induction from the root: what holds of the root, and of a node as soon as
    it holds of its parent, holds of every node. -/
theorem path_induction {P : Handle → Prop} (t : IsTree root up kids)
    (base : ∀ r, root = some r → P r) (step : ∀ h p, up h = some p → P p → P h) (h : Handle)
    (hh : Held root up h) : P h := by
  rcases t.held_under_root h hh with ⟨r, hr, hu⟩
  induction hu using Relation.ReflTransGen.head_induction_on with
  | refl => exact base r hr
  | head hp _ ih => exact step _ _ hp (ih (t.held_up _ _ hp))

/-- A child has fewer nodes under it than its parent, which is none of them. -/
theorem weight_lt (t : IsTree root up kids) (c p : Handle) (hc : up c = some p) :
    weight up c < weight up p := by
  refine Set.ncard_lt_ncard ⟨fun x hx => ?_, fun hsub => ?_⟩
  · exact Under.trans hx (Under.of_up hc)
  · exact t.acyclic c p hc (hsub (Under.refl p))

/-- A parent lies under fewer nodes than its child. -/
theorem level_lt (t : IsTree root up kids) (h p : Handle) (hp : up h = some p) :
    level up p < level up h := by
  refine Set.ncard_lt_ncard ⟨fun x hx => ?_, fun hsub => ?_⟩
  · exact (Under.of_up hp).trans hx
  · exact t.acyclic h p hp (hsub (Under.refl h))

theorem level_le (t : IsTree root up kids) (nodes : List Handle)
    (hall : ∀ x, Held root up x → x ∈ nodes) (h : Handle) (hh : Held root up h) :
    level up h ≤ nodes.length :=
  ncard_le_length _ nodes fun a ha => hall a (t.held_of_under h a hh ha)

-- Reading the child lists backwards changes nothing.
theorem reverse (t : IsTree root up kids) : IsTree root up fun h => (kids h).reverse := by
  refine ⟨t.root_up, fun p c => ?_, fun p => ?_, t.rooted⟩
  · rw [List.mem_reverse, t.mem_kids]
  · exact List.nodup_reverse.mpr (t.nodup p)

/-- A node with all below it can be put under any node that is not below it,
    new nodes included. The path of the new parent does not use the moved
    node, so it stays, and every path through the moved node continues along
    it. -/
theorem relink (t : IsTree root up kids) (up' : Handle → Option Handle)
    (kids' : Handle → List Handle) (p h : Handle) (hp : Held root up p) (hroot : root ≠ some h)
    (hph : ¬ Under up p h) (hup : ∀ x, up' x = if h = x then some p else up x)
    (hmem : ∀ q c, c ∈ kids' q ↔ up' c = some q) (hnd : ∀ q, (kids' q).Nodup) :
    IsTree root up' kids' := by
  have hself : up' h = some p := by rw [hup, if_pos rfl]
  have hother : ∀ x, x ≠ h → up' x = up x := fun x hx => by rw [hup, if_neg (Ne.symm hx)]
  have haway : ∀ x a, ¬ Under up x h → Under up x a → Under up' x a := by
    intro x a hx hu
    refine hu.congr fun b hb => hother b ?_
    rintro rfl
    exact hx hb
  rcases t.held_under_root p hp with ⟨r, hr, hpr⟩
  have hp' : Under up' h r := (Under.of_up hself).trans (haway p r hph hpr)
  refine ⟨fun r' hr' => ?_, hmem, hnd, fun x y hx => ?_⟩
  · rw [hother r' fun he => hroot (he ▸ hr'), t.root_up r' hr']
  · by_cases hxh : Under up x h
    · refine ⟨r, hr, Under.trans ?_ hp'⟩
      induction hxh using Relation.ReflTransGen.head_induction_on generalizing y with
      | refl => exact Under.refl h
      | @head a c hc hch ih =>
          by_cases ha : a = h
          · exact ha ▸ Under.refl a
          · refine (Under.of_up ((hother a ha).trans hc)).trans ?_
            by_cases hch' : c = h
            · exact hch' ▸ Under.refl c
            · rcases (under_iff_up c h).mp hch with he | ⟨d, hd, _⟩
              · exact absurd he hch'
              · exact ih d ((hother c hch').trans hd)
    · have hne : x ≠ h := by
        rintro rfl
        exact hxh (Under.refl x)
      rw [hother x hne] at hx
      rcases t.rooted x y hx with ⟨r', hr', hu⟩
      exact ⟨r', hr', haway x r' hxh hu⟩

/-- The same, with the child lists that result: the node is listed under its new
    parent and no longer where it was. -/
theorem rehang (t : IsTree root up kids) (up' : Handle → Option Handle)
    (kids' : Handle → List Handle) (p h : Handle) (hp : Held root up p) (hroot : root ≠ some h)
    (hph : ¬ Under up p h) (hup : ∀ x, up' x = if h = x then some p else up x)
    (hkids : ∀ q c, c ∈ kids' q ↔ (c ≠ h ∧ c ∈ kids q) ∨ (q = p ∧ c = h))
    (hnd : ∀ q, (kids' q).Nodup) : IsTree root up' kids' := by
  refine t.relink up' kids' p h hp hroot hph hup (fun q c => ?_) hnd
  rw [hkids, hup, t.mem_kids]
  by_cases hc : h = c
  · simp only [hc, ne_eq, not_true_eq_false, false_and, and_true, false_or, if_true,
      Option.some.injEq, eq_comm]
  · simp only [hc, ne_eq, Ne.symm hc, not_false_eq_true, true_and, and_false, or_false, if_false]

end IsTree

/-- The links after the nodes that satisfy `gone` were taken out together with
    all below them. -/
structure Prunes (up up' : Handle → Option Handle) (gone : Handle → Prop) : Prop where
  down : ∀ x p, up x = some p → gone p → gone x
  cut : ∀ x, gone x → up' x = none
  kept : ∀ x, ¬ gone x → up' x = up x

namespace Prunes

variable {up up' up'' : Handle → Option Handle} {gone gone' : Handle → Prop}

theorem gone_of_under (hp : Prunes up up' gone) (x a : Handle) (hu : Under up x a)
    (ha : gone a) : gone x := by
  induction hu using Relation.ReflTransGen.head_induction_on with
  | refl => exact ha
  | head hc _ ih => exact hp.down _ _ hc ih

/-- What is left was there before. -/
theorem up_of_up (hp : Prunes up up' gone) (x p : Handle) (hx : up' x = some p) :
    up x = some p ∧ ¬ gone x := by
  by_cases hg : gone x
  · rw [hp.cut x hg] at hx
    exact absurd hx (by simp only [reduceCtorEq, not_false_eq_true])
  · exact ⟨hp.kept x hg ▸ hx, hg⟩

/-- A node that is left lies under the same nodes as before. -/
theorem under_iff (hp : Prunes up up' gone) (x a : Handle) (hx : ¬ gone x) :
    Under up' x a ↔ Under up x a := by
  refine ⟨Under.mono fun y p hy => (hp.up_of_up y p hy).1, fun hu => ?_⟩
  exact hu.congr fun b hb => hp.kept b fun hg => hx (hp.gone_of_under x b hb hg)

/-- What is left of a tree is a tree. -/
theorem isTree (hp : Prunes up up' gone) (root : Option Handle) (kids kids' : Handle → List Handle)
    (t : IsTree root up kids) (hroot : ∀ r, root = some r → ¬ gone r)
    (hmem : ∀ q c, c ∈ kids' q ↔ up' c = some q) (hnd : ∀ q, (kids' q).Nodup) :
    IsTree root up' kids' := by
  refine ⟨fun r hr => ?_, hmem, hnd, fun x y hx => ?_⟩
  · rw [hp.kept r (hroot r hr), t.root_up r hr]
  · rcases hp.up_of_up x y hx with ⟨hx, hg⟩
    rcases t.rooted x y hx with ⟨r, hr, hu⟩
    exact ⟨r, hr, (hp.under_iff x r hg).mpr hu⟩

/-- One after the other. -/
theorem comp (hp : Prunes up up' gone) (hp' : Prunes up' up'' gone') :
    Prunes up up'' fun x => gone x ∨ gone' x := by
  refine ⟨fun x p hx hg => ?_, fun x hg => ?_, fun x hg => ?_⟩
  · by_cases hgx : gone x
    · exact Or.inl hgx
    · rcases hg with hg | hg
      · exact Or.inl (hp.down x p hx hg)
      · exact Or.inr (hp'.down x p ((hp.kept x hgx).trans hx) hg)
  · by_cases hgx : gone' x
    · exact hp'.cut x hgx
    · rw [hp'.kept x hgx]
      exact hp.cut x (hg.resolve_right hgx)
  · rw [not_or] at hg
    rw [hp'.kept x hg.2, hp.kept x hg.1]

theorem congr_gone (hp : Prunes up up' gone) (hg : ∀ x, gone' x ↔ gone x) :
    Prunes up up' gone' := by
  refine ⟨fun x p hx hgp => ?_, fun x hgx => ?_, fun x hgx => ?_⟩
  · exact (hg x).mpr (hp.down x p hx ((hg p).mp hgp))
  · exact hp.cut x ((hg x).mp hgx)
  · exact hp.kept x fun h => hgx ((hg x).mpr h)

end Prunes

/-- The child lists after a subtree was taken out: those in it are empty, and
    its top is in no other. -/
theorem IsTree.mem_kids_cut {root : Option Handle} {up : Handle → Option Handle}
    {kids : Handle → List Handle} (t : IsTree root up kids) (h : Handle)
    (up' : Handle → Option Handle) (kids' : Handle → List Handle)
    (hp : Prunes up up' (Under up · h)) (hgone : ∀ q, Under up q h → kids' q = [])
    (hstay : ∀ q, ¬ Under up q h → ∀ c, c ∈ kids' q ↔ c ≠ h ∧ c ∈ kids q) (q c : Handle) :
    c ∈ kids' q ↔ up' c = some q := by
  by_cases hq : Under up q h
  · rw [hgone q hq]
    refine iff_of_false List.not_mem_nil fun hc => ?_
    rcases hp.up_of_up c q hc with ⟨hcq, hcu⟩
    exact hcu ((Under.of_up hcq).trans hq)
  · rw [hstay q hq, t.mem_kids]
    constructor
    · rintro ⟨hne, hc⟩
      -- Only the top of the subtree has a parent outside of it.
      have hcu : ¬ Under up c h := by
        rw [under_iff_up, not_or]
        refine ⟨hne, ?_⟩
        rintro ⟨p, hcp, hph⟩
        rw [hc, Option.some.injEq] at hcp
        exact hq (hcp ▸ hph)
      rw [hp.kept c hcu, hc]
    · intro hc
      rcases hp.up_of_up c q hc with ⟨hcq, hcu⟩
      exact ⟨fun he => hcu (he ▸ Under.refl c), hcq⟩

/-- A tree without the subtree of a node, which is the empty tree for its root.
    The node is no longer listed, and no node of its subtree lists anything. -/
theorem IsTree.cut {root : Option Handle} {up : Handle → Option Handle}
    {kids : Handle → List Handle} (t : IsTree root up kids) (h : Handle)
    (up' : Handle → Option Handle) (kids' : Handle → List Handle)
    (hp : Prunes up up' (Under up · h)) (hgone : ∀ q, Under up q h → kids' q = [])
    (hstay : ∀ q, ¬ Under up q h → ∀ c, c ∈ kids' q ↔ c ≠ h ∧ c ∈ kids q)
    (hnd : ∀ q, (kids' q).Nodup) :
    IsTree (if root = some h then none else root) up' kids' := by
  have hmem := t.mem_kids_cut h up' kids' hp hgone hstay
  by_cases hroot : root = some h
  · -- Every node lies under the root, so nothing is left.
    have hnone : ∀ x, up' x = none := by
      intro x
      cases hx : up' x with
      | none => rfl
      | some y =>
          rcases hp.up_of_up x y hx with ⟨hxy, hxu⟩
          rcases t.rooted x y hxy with ⟨r, hr, hu⟩
          rw [hroot, Option.some.injEq] at hr
          exact absurd (hr ▸ hu) hxu
    rw [if_pos hroot]
    refine ⟨fun r _ => hnone r, hmem, hnd, fun x y hx => ?_⟩
    rw [hnone] at hx
    exact absurd hx (by simp only [reduceCtorEq, not_false_eq_true])
  · rw [if_neg hroot]
    refine hp.isTree root kids kids' t (fun r hr hu => hroot ?_) hmem hnd
    rw [hr, eq_of_under_top (t.root_up r hr) hu]

end Forest

end TreeWatch
