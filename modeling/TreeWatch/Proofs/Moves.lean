import TreeWatch.Proofs.SecondSweep
import TreeWatch.Proofs.Sides

/-!
# Moved Nodes and the Order of the Sweep

A node has moved if it is recorded under one parent and live under another. The
second sweep comes to both parents, or to a node above the new one that is to be
inserted, and what it does to the moved node depends on where it comes first. If the
old parent comes first the node is removed there, as one that is not wanted, and the
new place finds it gone. Otherwise it is taken from where it is.

Both parents are compared in the snapshot, so the order does not depend on the state
of the sweep. The old parent comes first if it is left of the node, or if the node
moved below a child of its old parent and its row was in front of that child
(`Overtaken`).

What the sweep has done when it comes to a node is `Swept`: all that is left of the
node is finished, and on the way down to it no row was passed that did not belong
there.

## Main definitions

* `Pass.Moved`: A node is recorded under another parent than its live one.
* `Pass.Overtaken`: The old parent of a node comes before its new place.
* `Pass.Timely`: A node has moved and its new place comes first.
* `Pass.Swept`: What the sweep has done when it comes to a node.

## Theorems

* `Pass.swept_root`, `Pass.Swept.advance`, `Pass.Swept.child`: The sweep keeps its
  order.
* `Pass.Merging.overtaken`: A row that is passed or left over is overtaken.
* `Pass.Merging.timely_next`, `Pass.Merging.timely_below`: A node that is taken from
  elsewhere is timely.
* `Pass.Merging.not_ahead`: A walk has nothing tracked behind it.
-/

namespace TreeWatch

open Forest (Under under_total under_iff_up LeftOf Ahead)

namespace Pass

/-- The node is tracked and live, and its recorded parent is not its live one. -/
def Moved (live : Snapshot) (s : Store) (x : Handle) : Prop :=
  s.contains x = true ∧ live.contains x = true ∧ s.parent x ≠ live.parent x

/-- A node that was recorded under `p` is found there before its new place is come to:
    `p` is left of it, or the node is below a child of `p` that comes after it. -/
def Overtaken (live : Snapshot) (p x : Handle) : Prop :=
  LeftOf live.parent p x ∨ ∃ c, live.parent c = some p ∧ Under live.parent x c ∧ x < c

/-- The node has moved, and its new place is come to first. -/
def Timely (live : Snapshot) (s : Store) (x : Handle) : Prop :=
  Moved live s x ∧ ∀ p, s.parent x = some p → ¬ Overtaken live p x

/-- The sweep has come to a node. What is left of the node is finished, and where it
    was passed on the way down, the rows in front are live there. -/
structure Swept (live : Snapshot) (node : Handle) (s : Store) : Prop where
  left : ∀ x, LeftOf live.parent x node → Finished live s x
  passed : ∀ m d v, live.parent d = some m → Under live.parent node d → s.parent v = some m →
    v < d → live.parent v = some m

section Sweeps

variable (live : Snapshot) (hlive : live.Proper) (node : Handle) (s t : Store)

include hlive

-- A finished node has its live children only.
theorem Finished.parent_eq (hs : s.Sound) (q x : Handle) (hq : Finished live s q)
    (hx : s.parent x = some q) : live.parent x = some q := by
  rw [← hlive.tree.mem_kids, ← hq.2, hs.tree.mem_kids]
  exact hx

/-- The sweep starts at the root. -/
theorem swept_root (hr : live.root = some node) : Swept live node s := by
  have htop : ∀ m d, live.parent d = some m → ¬ Under live.parent node d := by
    intro m d hd hu
    rw [Forest.eq_of_under_top (hlive.tree.root_up node hr) hu] at hd
    exact hlive.tree.root_ne node m hd hr
  refine ⟨fun x hx => ?_, fun m d v hd hu => absurd hu (htop m d hd)⟩
  rcases hx with ⟨_, d, m, _, hd, _, _, hu⟩
  exact absurd hu (htop m d hd)

/-- The sweep does not undo what it has done. -/
theorem Swept.advance (d : Handle) (hs : s.Sound) (ht : t.Sound) (h : Swept live node s)
    (hadv : Advances live d s t) : Swept live node t := by
  refine ⟨fun x hx => (h.left x hx).advance live s t hlive d x hs ht hadv, ?_⟩
  intro m c v hc hu hv hlt
  rcases hadv.links v m hv with hv | ⟨hv, _⟩
  · exact h.passed m c v hc hu hv hlt
  · exact hv

/-- What would overtake a node that is live under a child of the node of the sweep
    comes in under that child. -/
theorem Swept.overtaken_under (hs : s.Sound) (h : Swept live node s) (b x q : Handle)
    (hb : live.parent b = some node) (hx : Under live.parent x b) (hq : s.parent x = some q)
    (hne : live.parent x ≠ some q) (ho : Overtaken live q x) :
    (∃ d c m, live.parent d = some m ∧ live.parent c = some m ∧ d < c ∧ Under live.parent q d ∧
      Under live.parent x c ∧ Under live.parent c b) ∨
    ∃ c, live.parent c = some q ∧ Under live.parent x c ∧ x < c ∧ Under live.parent c b := by
  -- A child on the way up is at `b` or under it, or the node of the sweep is under it.
  have hsplit : ∀ c, Under live.parent x c → Under live.parent c b ∨ Under live.parent node c := by
    intro c hc
    rcases under_total hc hx with hcb | hbc
    · exact Or.inl hcb
    · rcases (under_iff_up b c).mp hbc with rfl | ⟨p, hp, hpc⟩
      · exact Or.inl (Under.refl b)
      · rw [hb, Option.some.injEq] at hp
        exact Or.inr (hp ▸ hpc)
  rcases ho with ⟨d, c, m, hd, hc, hlt, hqd, hxc⟩ | ⟨c, hc, hxc, hlt⟩
  · rcases hsplit c hxc with hcb | hnc
    · exact Or.inl ⟨d, c, m, hd, hc, hlt, hqd, hxc, hcb⟩
    · have hfin := h.left q ⟨d, c, m, hd, hc, hlt, hqd, hnc⟩
      exact absurd (hfin.parent_eq live hlive s hs q x hq) hne
  · rcases hsplit c hxc with hcb | hnc
    · exact Or.inr ⟨c, hc, hxc, hlt, hcb⟩
    · exact absurd (h.passed q c x hc hnc hq hlt) hne

end Sweeps

section Merge

variable (live : Snapshot) (hlive : live.Proper) (node : Handle) (done wanted tail : List Handle)
  (s : Store)

include hlive

/-- The live children that come before one of a batch are dealt with or in the
    batch. -/
theorem Merging.mem_of_lt (batch back : List Handle)
    (hm : Merging live node done (batch ++ back) tail s) (b d : Handle) (hb : b ∈ batch)
    (hd : live.parent d = some node) (hlt : d < b) : d ∈ done ∨ d ∈ batch := by
  have hasc := hm.wanted_eq ▸ hlive.ascending node
  have hmem := (hlive.tree.mem_kids node d).mpr hd
  rw [hm.wanted_eq, List.mem_append, List.mem_append] at hmem
  rcases hmem with hd | hd | hd
  · exact Or.inl hd
  · exact Or.inr hd
  · have hrest := (List.pairwise_append.mp hasc).2.1
    exact absurd ((List.pairwise_append.mp hrest).2.2 b hb d hd) (lt_asymm hlt)

-- A recorded child that is dealt with is live here.
theorem Merging.parent_of_done (hm : Merging live node done wanted tail s) (c : Handle)
    (hc : c ∈ done) : live.parent c = some node := by
  rw [← hlive.tree.mem_kids, hm.wanted_eq]
  exact List.mem_append_left wanted hc

/-- When the merge comes to a child, the sweep has come to it. -/
theorem Swept.child (h : Handle) (rest : List Handle)
    (hm : Merging live node done (h :: rest) tail s) (hswept : Swept live node s)
    (htail : ∀ x ∈ tail, h ≤ x) : Swept live h s := by
  have hh : live.parent h = some node := by
    rw [← hlive.tree.mem_kids, hm.wanted_eq]
    exact List.mem_append_right done List.mem_cons_self
  refine ⟨fun x hx => ?_, fun m d v hd hu hv hlt => ?_⟩
  · rcases hx with ⟨c, d, m, hc, hd, hlt, hxc, hhd⟩
    rcases (under_iff_up h d).mp hhd with rfl | ⟨p, hp, hpd⟩
    · -- The child on the left is dealt with.
      have hmn : m = node := Option.some.inj (hd.symm.trans hh)
      subst hmn
      rcases hm.mem_of_lt live hlive m done tail s [h] rest h c (List.mem_singleton_self h) hc
        hlt with hdone | hbatch
      · exact hm.finished c hdone x hxc
      · exact absurd (List.mem_singleton.mp hbatch ▸ hlt) (lt_irrefl h)
    · rw [hh, Option.some.injEq] at hp
      exact hswept.left x ⟨c, d, m, hc, hd, hlt, hxc, hp ▸ hpd⟩
  · rcases (under_iff_up h d).mp hu with rfl | ⟨p, hp, hpd⟩
    · have hmn : m = node := Option.some.inj (hd.symm.trans hh)
      subst hmn
      rw [← hm.fits.sound.tree.mem_kids, hm.kids_eq, List.mem_append] at hv
      rcases hv with hv | hv
      · exact hm.parent_of_done live hlive m done _ tail s v hv
      · exact absurd hlt (not_lt_of_ge (htail v hv))
    · rw [hh, Option.some.injEq] at hp
      exact hswept.passed m d v hd (hp ▸ hpd) hv hlt

/-- A recorded child that all wanted ones come after is overtaken here, if it is live
    elsewhere. Its live place is below a wanted child or right of the node, because
    otherwise the sweep would have come to it. -/
theorem Merging.overtaken (hm : Merging live node done wanted tail s) (hswept : Swept live node s)
    (v : Handle) (hv : s.parent v = some node) (hlv : live.contains v = true)
    (hne : live.parent v ≠ some node) (hpass : ∀ w ∈ wanted, v < w) : Overtaken live node v := by
  have hs := hm.fits.sound
  have hplaced : ¬ Placed live s v := fun hp => hne ((hp v (Under.refl v)).symm.trans hv)
  rcases hlive.tree.sides v node ((hlive.contains_iff v).mp hlv)
    ((hlive.contains_iff node).mp hm.is_live) with hu | hu | hleft | hright
  · -- It is below one of the children.
    rcases (hlive.tree.under_iff_kid v node).mp hu with rfl | ⟨c, hc, hvc⟩
    · exact absurd (Under.refl v) (hs.tree.acyclic v v hv)
    · have hcp := (hlive.tree.mem_kids node c).mp hc
      rw [hm.wanted_eq, List.mem_append] at hc
      rcases hc with hc | hc
      · exact absurd (hm.finished c hc v hvc).1 hplaced
      · exact Or.inr ⟨c, hcp, hvc, hpass c hc⟩
  · exact absurd (Placed.above live s node v hm.placed hu) hplaced
  · exact absurd (hswept.left v hleft).1 hplaced
  · exact Or.inl hright

/-- A wanted child that is recorded under another node is timely. -/
theorem Merging.timely_next (h : Handle) (rest : List Handle)
    (hm : Merging live node done (h :: rest) tail s) (hswept : Swept live node s)
    (hh : s.contains h = true) (helse : s.parent h ≠ some node) : Timely live s h := by
  have hs := hm.fits.sound
  have hlh : live.parent h = some node := by
    rw [← hlive.tree.mem_kids, hm.wanted_eq]
    exact List.mem_append_right done List.mem_cons_self
  refine ⟨⟨hh, (hlive.contains_of_parent live h node hlh).1, hlh ▸ helse⟩, fun q hq ho => ?_⟩
  have hne : live.parent h ≠ some q := by
    rw [hlh]
    rintro he
    exact helse (he ▸ hq)
  rcases hswept.overtaken_under live hlive node s hs h h q hlh (Under.refl h) hq hne ho with
    ⟨d, c, m, hd, hc, hlt, hqd, hhc, hch⟩ | ⟨c, _, hhc, hlt, hch⟩
  · -- Its recorded parent would be under a child that is dealt with.
    have hch' := hlive.tree.under_antisymm h c hhc hch
    subst hch'
    have hmn : m = node := Option.some.inj (hc.symm.trans hlh)
    subst hmn
    rcases hm.mem_of_lt live hlive m done tail s [h] rest h d (List.mem_singleton_self h) hd
      hlt with hdone | hbatch
    · exact hne ((hm.finished d hdone q hqd).parent_eq live hlive s hs q h hq)
    · exact lt_irrefl h (List.mem_singleton.mp hbatch ▸ hlt)
  · exact absurd (hlive.tree.under_antisymm h c hhc hch ▸ hlt) (lt_irrefl _)

/-- When a walk below a batch has come to a node, and what it came to before is not
    tracked any more, nothing that is tracked at or below the batch is ahead of the
    node. -/
theorem Merging.not_ahead (batch back : List Handle)
    (hm : Merging live node done (batch ++ back) tail s) (before nodes : List Handle) (x : Handle)
    (hsplit : batch.flatMap live.descendants = before ++ x :: nodes)
    (hbatch : ∀ b ∈ batch, s.contains b = false) (hbefore : ∀ v ∈ before, s.contains v = false)
    (b : Handle) (hb : b ∈ batch) (y : Handle) (hy : s.contains y = true)
    (hu : Under live.parent y b) : ¬ Ahead live.parent y x := by
  have hasc := hm.wanted_eq ▸ hlive.ascending node
  have hwalk := hlive.pairwise_batch live node batch
    (List.pairwise_append.mp (List.pairwise_append.mp hasc).2.1).1 fun b hb => by
      rw [← hlive.tree.mem_kids, hm.wanted_eq]
      exact List.mem_append_right done (List.mem_append_left back hb)
  have hyb : y ≠ b := by
    rintro rfl
    exact Bool.false_ne_true ((hbatch y hb).symm.trans hy)
  have hmem : y ∈ batch.flatMap live.descendants :=
    List.mem_flatMap.mpr ⟨b, hb, (hlive.mem_descendants_iff_ne live b y).mpr ⟨hyb, hu⟩⟩
  rw [hsplit] at hmem hwalk
  rcases List.mem_append.mp hmem with hy' | hy'
  · exact absurd ((hbefore y hy').symm.trans hy) Bool.false_ne_true
  · rcases List.mem_cons.mp hy' with rfl | hy'
    · exact hlive.tree.not_ahead_self y
    · exact (List.pairwise_cons.mp (List.pairwise_append.mp hwalk).2.1).1 y hy'

/-- A node that is tracked although it is live below one of a batch is timely, if
    nothing that is tracked at or below the batch is ahead of it. -/
theorem Merging.timely_below (batch back : List Handle)
    (hm : Merging live node done (batch ++ back) tail s) (hswept : Swept live node s)
    (b x : Handle) (hb : b ∈ batch) (hx : x ∈ live.descendants b) (q : Handle)
    (hq : s.parent x = some q) (hfront : ∀ y ∈ tail, b < y)
    (hahead : ∀ b ∈ batch, ∀ y, s.contains y = true → Under live.parent y b →
      ¬ Ahead live.parent y x) : Timely live s x := by
  have hs := hm.fits.sound
  rcases (hlive.mem_descendants_iff_ne live b x).mp hx with ⟨hxb, hu⟩
  have hlb : live.parent b = some node := by
    rw [← hlive.tree.mem_kids, hm.wanted_eq]
    exact List.mem_append_right done (List.mem_append_left back hb)
  have hxt := (s.contains_iff x).mpr (Or.inr ⟨q, hq⟩)
  have hout : ∀ b' ∈ batch, Under live.parent q b' → ¬ Ahead live.parent q x := fun b' hb' =>
    hahead b' hb' q ((s.contains_iff_held q).mpr (hs.tree.held_up x q hq))
  have hne : live.parent x ≠ some q := by
    intro hlx
    rcases (under_iff_up x b).mp hu with he | ⟨p, hp, hpb⟩
    · exact hxb he
    · rw [hlx, Option.some.injEq] at hp
      subst hp
      refine hout b hb hpb (Or.inr ⟨?_, Under.of_up hlx⟩)
      rintro rfl
      exact hlive.tree.acyclic x x hlx (Under.refl x)
  refine ⟨⟨hxt, ?_, ?_⟩, fun p hp ho => ?_⟩
  · exact hm.fits.live x hxt
  · rw [hq]
    exact hne.symm
  · have hpq : p = q := Option.some.inj (hp.symm.trans hq)
    subst hpq
    rcases hswept.overtaken_under live hlive node s hs b x p hlb hu hq hne ho with
      ⟨d, c, m, hd, hc, hlt, hqd, hxc, hcb⟩ | ⟨c, hc, hxc, hlt, hcb⟩
    · have hleft : Ahead live.parent p x := Or.inl ⟨d, c, m, hd, hc, hlt, hqd, hxc⟩
      rcases (under_iff_up c b).mp hcb with rfl | ⟨m', hm', hmb⟩
      · -- The recorded parent is under a child that comes before `b`.
        have hmn : m = node := Option.some.inj (hc.symm.trans hlb)
        subst hmn
        rcases hm.mem_of_lt live hlive m done tail s batch back c d hb hd hlt with hdone | hbatch'
        · exact hne ((hm.finished d hdone p hqd).parent_eq live hlive s hs p x hq)
        · exact hout d hbatch' hqd hleft
      · rw [hc, Option.some.injEq] at hm'
        exact hout b hb (hqd.trans ((Under.of_up hd).trans (hm' ▸ hmb))) hleft
    · rcases (under_iff_up c b).mp hcb with rfl | ⟨m', hm', hmb⟩
      · -- It is a recorded child of the node, and those left come after `b`.
        have hpn : p = node := Option.some.inj (hc.symm.trans hlb)
        subst hpn
        rw [← hs.tree.mem_kids, hm.kids_eq, List.mem_append] at hq
        rcases hq with hdone | htail
        · exact hne (hm.parent_of_done live hlive p done _ tail s x hdone)
        · exact lt_asymm hlt (hfront x htail)
      · rw [hc, Option.some.injEq] at hm'
        subst hm'
        have hxp := hxc.trans (Under.of_up hc)
        refine hout b hb hmb (Or.inr ⟨?_, hxp⟩)
        rintro rfl
        exact hs.tree.acyclic x x hq (Under.refl x)

end Merge

end Pass

end TreeWatch
