import TreeWatch.Proofs.Edits

/-!
# Nodes That Are in Place

The second sweep of a full pass goes through the snapshot from the root down,
and while it works on one child list it may take nodes out of others: a node
that moved is taken from wherever it was, and whatever is tracked below a new
node is evicted. What keeps the sweep from undoing its own work is the notion
of a node that is in place. A node is placed when it and all nodes above it in
the snapshot have the parents that the snapshot says.

Only nodes that are not placed are ever removed or moved, and every new link
is a link of the snapshot, made below the node that is being worked on. This
is `Advances`, the relation between the records before and after any part of
the sweep. It keeps placed nodes placed and finished child lists finished,
whatever happens elsewhere in the record.

## Main definitions

* `Pass.Fits`: A record of the right root that tracks live nodes only.
* `Pass.Placed`: A node and all above it have their live parents.
* `Pass.Finished`: A placed node with its live children.
* `Pass.Advances`: What any part of the second sweep does to a record.

## Theorems

* `Pass.Placed.under_iff`: A placed node lies under its live ancestors.
* `Pass.Fits.advance`, `Pass.Finished.advance`: What the sweep preserves.
* `Pass.advances_of_cut`: A cut that spares the placed nodes advances.
* `Pass.children_front`: The front of a child list that is in place stays.
-/

namespace TreeWatch

open Forest (Under under_iff_up)

namespace Pass

/-- The record has the root of the snapshot and tracks live nodes only. -/
structure Fits (live : Snapshot) (s : Store) : Prop where
  sound : s.Sound
  root : s.root = live.root
  live : ∀ x, s.contains x = true → live.contains x = true

/-- The node and all nodes above it in the snapshot have their parents from the
    snapshot. -/
def Placed (live : Snapshot) (s : Store) (y : Handle) : Prop :=
  ∀ a, Under live.parent y a → s.parent a = live.parent a

/-- The node is in place and has the children it has in the snapshot. -/
def Finished (live : Snapshot) (s : Store) (x : Handle) : Prop :=
  Placed live s x ∧ s.children x = live.children x

/-- From the record `s` to the record `t` no node lost its place, and every new
    link is one of the snapshot, below `d` or at `d`. -/
structure Advances (live : Snapshot) (d : Handle) (s t : Store) : Prop where
  root : t.root = s.root
  placed : ∀ y, Placed live s y → Placed live t y
  links : ∀ c p, t.parent c = some p →
    s.parent c = some p ∨ (live.parent c = some p ∧ Under live.parent p d)

section Records

variable (live : Snapshot) (s t u : Store)

theorem Placed.above (y a : Handle) (hy : Placed live s y) (ha : Under live.parent y a) :
    Placed live s a := fun b hb => hy b (ha.trans hb)

theorem Placed.child (c p : Handle) (hp : Placed live s p) (hc : live.parent c = some p)
    (hsc : s.parent c = some p) : Placed live s c := by
  intro a ha
  rcases (under_iff_up c a).mp ha with rfl | ⟨q, hq, hqa⟩
  · rw [hsc, hc]
  · rw [hc, Option.some.injEq] at hq
    exact hp a (hq ▸ hqa)

/-- A placed node lies under the same nodes in the record and in the
    snapshot. -/
theorem Placed.under_iff (y a : Handle) (hy : Placed live s y) :
    Under s.parent y a ↔ Under live.parent y a := by
  refine ⟨fun hu => ?_, fun hu => hu.congr hy⟩
  induction hu with
  | refl => exact Under.refl y
  | tail _ hp ih => exact ih.trans (Under.of_up ((hy _ ih).symm.trans hp))

/-- A live node that is placed is tracked. -/
theorem Fits.tracked_of_placed (hlive : live.Proper) (hs : Fits live s) (y : Handle)
    (hy : Placed live s y) (hly : live.contains y = true) : s.contains y = true := by
  rw [Store.contains_iff, hs.root, hy y (Under.refl y)]
  exact (hlive.contains_iff y).mp hly

/-- The recorded root is below no node of the snapshot, so a node that is below
    one is tracked as soon as it has a parent. -/
theorem Fits.untracked_below (hlive : live.Proper) (hs : Fits live s) (b v : Handle)
    (hv : v ∈ live.descendants b) (hp : s.parent v = none) : s.contains v = false := by
  refine (s.not_contains_iff v).mpr ⟨fun hr => ?_, hp⟩
  rcases (hlive.mem_descendants live b v).mp hv with ⟨c, hc, hu⟩
  rw [hs.root] at hr
  rw [Forest.eq_of_under_top (hlive.tree.root_up v hr) hu] at hc
  exact hlive.tree.root_ne v b hc hr

/-- A placed node is not under a node that is live below an untracked one, because
    then the untracked one would be placed, too. -/
theorem Fits.unplaced_below (hlive : live.Proper) (hs : Fits live s) (b v : Handle)
    (hb : s.contains b = false) (hlb : live.contains b = true) (hv : v ∈ live.descendants b)
    (y : Handle) (hy : Placed live s y) : ¬ Under s.parent y v := by
  intro hu
  have hvp := Placed.above live s y v hy ((hy.under_iff live s y v).mp hu)
  have hbp := Placed.above live s v b hvp ((hlive.mem_descendants_iff_ne live b v).mp hv).2
  have htracked := hs.tracked_of_placed live s hlive b hbp hlb
  rw [hb] at htracked
  exact Bool.false_ne_true htracked

theorem Advances.refl (d : Handle) : Advances live d s s :=
  ⟨rfl, fun _ hy => hy, fun _ _ hc => Or.inl hc⟩

theorem Advances.trans (d : Handle) (hst : Advances live d s t) (htu : Advances live d t u) :
    Advances live d s u := by
  refine ⟨htu.root.trans hst.root, fun y hy => htu.placed y (hst.placed y hy), fun c p hc => ?_⟩
  rcases htu.links c p hc with hc | hc
  · exact hst.links c p hc
  · exact Or.inr hc

/-- What happens below a node happens below the nodes above it. -/
theorem Advances.mono (d e : Handle) (hst : Advances live d s t) (hde : Under live.parent d e) :
    Advances live e s t := by
  refine ⟨hst.root, hst.placed, fun c p hc => (hst.links c p hc).imp_right fun hp => ?_⟩
  exact ⟨hp.1, hp.2.trans hde⟩

theorem Fits.advance (hlive : live.Proper) (d : Handle) (hs : Fits live s) (ht : t.Sound)
    (hst : Advances live d s t) : Fits live t := by
  refine ⟨ht, hst.root.trans hs.root, fun x hx => ?_⟩
  rcases (t.contains_iff x).mp hx with hr | ⟨p, hp⟩
  · exact hs.live x ((s.contains_iff x).mpr (Or.inl (hst.root ▸ hr)))
  · rcases hst.links x p hp with hp | ⟨hp, _⟩
    · exact hs.live x ((s.contains_iff x).mpr (Or.inr ⟨p, hp⟩))
    · exact (hlive.contains_of_parent live x p hp).1

/-- A finished node stays finished, wherever the sweep goes on. Its children
    are placed, so it keeps them, and a new link to it could only be a link of
    the snapshot, which it has already. -/
theorem Finished.advance (hlive : live.Proper) (d x : Handle) (hs : s.Sound) (ht : t.Sound)
    (hx : Finished live s x) (hst : Advances live d s t) : Finished live t x := by
  refine ⟨hst.placed x hx.1, ?_⟩
  rw [← hx.2]
  refine ht.children_ext t s hs x x fun c => ⟨fun hc => ?_, fun hc => ?_⟩
  · rcases hst.links c x hc with hc | ⟨hc, _⟩
    · exact hc
    · rw [← hs.tree.mem_kids, hx.2, hlive.tree.mem_kids]
      exact hc
  · have hlc : live.parent c = some x := by
      rw [← hlive.tree.mem_kids, ← hx.2, hs.tree.mem_kids]
      exact hc
    have hcp := Placed.child live s c x hx.1 hlc hc
    rw [hst.placed c hcp c (Under.refl c), hlc]

/-- A cut that takes no placed node away advances, wherever it happens. -/
theorem advances_of_cut (d : Handle) (gone : Handle → Prop) (hcut : s.Cuts t gone)
    (hspare : ∀ y, Placed live s y → ¬ gone y) : Advances live d s t := by
  refine ⟨hcut.root, fun y hy a ha => ?_, fun c p hc => Or.inl (hcut.links.up_of_up c p hc).1⟩
  rw [hcut.links.kept a (hspare a (Placed.above live s y a hy ha)), hy a ha]

/-- What is in place at the front of a child list stays there if the node gets
    no new child. -/
theorem children_front (hs : s.Sound) (ht : t.Sound) (node : Handle) (front back : List Handle)
    (hkids : s.children node = front ++ back)
    (hfront : ∀ c ∈ front, live.parent c = some node ∧ Placed live t c)
    (hnew : ∀ c, t.parent c = some node → s.parent c = some node) :
    ∃ back', t.children node = front ++ back' ∧ ∀ x ∈ back', x ∈ back := by
  refine Handle.ascending_prefix front back _ (hkids ▸ hs.ascending node) (ht.ascending node) ?_ ?_
  · intro c hc
    rcases hfront c hc with ⟨hlc, hp⟩
    rw [ht.tree.mem_kids, hp c (Under.refl c), hlc]
  · intro c hc
    rw [← hkids, hs.tree.mem_kids]
    exact hnew c ((ht.tree.mem_kids node c).mp hc)

end Records

end Pass

end TreeWatch
