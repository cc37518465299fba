import TreeWatch.Proofs.Edits

/-!
# Making Room

Before the nodes of a snapshot are put in without a word about each of them,
whatever is tracked below them has to go, since no node can be recorded twice.
The nodes that go are found by a walk over the snapshot, and each takes along
what is recorded below it. The record may look quite different there. A later
node of the walk may have gone with an earlier one, and nodes that the snapshot
does not show, or shows elsewhere, may go as well. Only the root of the record
stays where it is.

What goes can still be said in one sentence about the record as it was, because
taking out one subtree changes nothing about the nodes outside of it.

## Main definitions

* `Snapshot.ShowsBelow`: A snapshot shows one node below another.
* `Store.InTheWayOf`: A node that an eviction removes with what is below it.
* `Store.MakesRoom`: What an eviction does to a record.

## Theorems

* `Step.evicted_iff_inTheWay`: What goes, in terms of the snapshot.
* `Store.Cuts.children_filter`: The nodes that stay keep their order.
* `Step.evictTracked_makesRoom`: An eviction from any record that passes the
  check makes room.
-/

namespace TreeWatch

open Forest (Under)

/-- The snapshot shows `d` below `r`, which is another node. -/
def Snapshot.ShowsBelow (fill : Snapshot) (d r : Handle) : Prop := d ≠ r ∧ Under fill.parent d r

namespace Store

/-- A tracked node other than the root that a snapshot shows below one of
    `roots`. -/
structure InTheWayOf (s : Store) (fill : Snapshot) (roots : List Handle) (v : Handle) : Prop where
  shown : ∃ r ∈ roots, fill.ShowsBelow v r
  tracked : s.contains v = true
  not_root : s.root ≠ some v

/-- The record `t` is `s` after room was made for what a snapshot shows below
    `roots`. Of all that, no more than the root of the record is still tracked.
    The recorded subtrees of the nodes in the way are gone and nothing else is.
    Every other node has the parent it had, and the children that are left, in
    the same order. The answer tells whether anything is gone. -/
structure MakesRoom (fill : Snapshot) (roots : List Handle) (s t : Store) (answer : Bool) :
    Prop where
  sound : t.check = none
  root : t.root = s.root
  cleared : ∀ r ∈ roots, ∀ d, fill.ShowsBelow d r → t.contains d = true → t.root = some d
  gone_iff : ∀ x, s.contains x = true ∧ t.contains x = false ↔
    ∃ v, s.InTheWayOf fill roots v ∧ Under s.parent x v
  kept : ∀ x, t.contains x = true → s.contains x = true ∧ t.parent x = s.parent x
  order : ∀ x, t.contains x = true → t.children x = (s.children x).filter (t.contains ·)
  answer_iff : answer = true ↔ ∃ x, s.contains x = true ∧ t.contains x = false

/-- A node that stays keeps those of its children that stay, in their order. -/
theorem Cuts.children_filter {s t : Store} {gone : Handle → Prop} (hst : Cuts s t gone)
    (hs : s.Sound) (x : Handle) : t.children x = (s.children x).filter (t.contains ·) := by
  refine hst.sound.children_eq t x _ ((hs.ascending x).sublist List.filter_sublist) fun c => ?_
  rw [← hst.sound.tree.mem_kids, hst.mem_children_iff hs, List.mem_filter]
  refine and_congr_right fun hc => ?_
  have htracked : s.contains c = true :=
    (s.contains_iff c).mpr (Or.inr ⟨x, (hs.tree.mem_kids x c).mp hc⟩)
  rw [hst.contains_iff, htracked]
  simp only [true_and]

end Store

namespace Step

section Eviction

variable (s : Store) (hs : s.Sound) (fill : Snapshot) (hfill : fill.Proper)
  (roots : List Handle)

include hs hfill

/-- What an eviction takes out is what is recorded under the nodes in the way. A
    node has a recorded parent exactly if it is tracked and not the root. -/
theorem evicted_iff_inTheWay (x : Handle) : Evicted s (roots.flatMap fill.descendants) x ↔
    ∃ v, s.InTheWayOf fill roots v ∧ Under s.parent x v := by
  have hshown : ∀ v, v ∈ roots.flatMap fill.descendants ↔ ∃ r ∈ roots, fill.ShowsBelow v r := by
    intro v
    simp only [List.mem_flatMap, hfill.mem_descendants_iff_ne, Snapshot.ShowsBelow]
  have hparent : ∀ v, s.parent v ≠ none ↔ s.contains v = true ∧ s.root ≠ some v := by
    intro v
    rw [Option.ne_none_iff_exists', s.contains_iff]
    constructor
    · rintro ⟨p, hp⟩
      exact ⟨Or.inr ⟨p, hp⟩, hs.tree.root_ne v p hp⟩
    · rintro ⟨hr | hp, hne⟩
      · exact absurd hr hne
      · exact hp
  refine exists_congr fun v => ?_
  rw [hshown, hparent]
  exact ⟨fun ⟨hv, ⟨ht, hne⟩, hu⟩ => ⟨⟨hv, ht, hne⟩, hu⟩, fun ⟨h, hu⟩ =>
    ⟨h.shown, ⟨h.tracked, h.not_root⟩, hu⟩⟩

end Eviction

/-- An eviction from a record that passes the check succeeds and makes room for
    what any snapshot shows below any nodes. -/
theorem evictTracked_makesRoom (isAlive : Handle → Bool) (s : Step) (hs : s.store.check = none)
    (fill : Snapshot) (hfill : fill.Built) (roots : List Handle) :
    ∃ answer s', s.evictTracked isAlive roots fill = .ok (answer, s') ∧
      Store.MakesRoom fill roots s.store s'.store answer := by
  have hsound := s.store.check_eq_none_iff_sound.mp hs
  have hproper := hfill.proper fill
  have hgone := evicted_iff_inTheWay s.store hsound fill hproper roots
  rcases s.evictTracked_spec isAlive hsound roots fill with
    ⟨answer, s', hrun, _, hcut, hanswer, _⟩
  have hlost : ∀ x, s.store.contains x = true ∧ s'.store.contains x = false ↔
      Evicted s.store (roots.flatMap fill.descendants) x := by
    intro x
    rw [← Bool.not_eq_true, hcut.contains_iff]
    refine ⟨fun ⟨htracked, hout⟩ => by_contra fun hstays => hout ⟨htracked, hstays⟩,
      fun hx => ⟨?_, fun h => h.2 hx⟩⟩
    rcases (hgone x).mp hx with ⟨v, hv, hu⟩
    rw [s.store.contains_iff_held]
    exact Forest.held_of_above _ _ x v hu ((s.store.contains_iff_held v).mp hv.tracked)
  refine ⟨answer, s', hrun, s'.store.check_eq_none_iff_sound.mpr hcut.sound, hcut.root,
    fun r hr d hd ht => ?_, fun x => (hlost x).trans (hgone x), fun x ht => ?_,
    fun x _ => hcut.children_filter hsound x, ?_⟩
  · -- A node in the way would be gone with its own subtree.
    rcases (hcut.contains_iff d).mp ht with ⟨htracked, hstays⟩
    by_contra hroot
    rw [hcut.root] at hroot
    exact hstays ((hgone d).mpr ⟨d, ⟨⟨r, hr, hd⟩, htracked, hroot⟩, Under.refl d⟩)
  · rcases (hcut.contains_iff x).mp ht with ⟨htracked, hstays⟩
    exact ⟨htracked, hcut.links.kept x hstays⟩
  · rw [hanswer, exists_congr hlost]
    constructor
    · rintro ⟨v, hv, hp⟩
      exact ⟨v, v, hv, hp, Under.refl v⟩
    · rintro ⟨_, v, hv, hp, _⟩
      exact ⟨v, hv, hp⟩

/-- The root has two children, and below the first one are two more nodes and a
    third below one of them. -/
def crowded : Store :=
  [(⟨1⟩, ⟨2⟩), (⟨1⟩, ⟨3⟩), (⟨2⟩, ⟨4⟩), (⟨2⟩, ⟨5⟩), (⟨4⟩, ⟨6⟩)].foldl (fun s e => s.link e.1 e.2)
    (Store.ofRoot (some ⟨1⟩))

/-- Shows the first child below a new node, next to the root and to one of the
    nodes that are recorded below that child. -/
def crowding : Snapshot :=
  .ofEdges ⟨9⟩ [(⟨9⟩, ⟨1⟩), (⟨9⟩, ⟨2⟩), (⟨9⟩, ⟨4⟩), (⟨1⟩, ⟨6⟩), (⟨4⟩, ⟨7⟩)]

-- The first child goes with all below it, a node among them that is not shown.
-- The other nodes in the way are gone by then, and the root stays.
theorem evictTracked_makesRoom_of_crowded :
    crowded.check = none ∧ crowding.Built ∧
      ∃ s', evictTracked (fun _ => true) { store := crowded } [⟨9⟩] crowding = .ok (true, s') ∧
        s'.store.shape.keys = [⟨1⟩, ⟨3⟩] ∧
        Store.MakesRoom crowding [⟨9⟩] crowded s'.store true := by
  have hcheck : crowded.check = none := by decide +kernel
  have hbuilt : crowding.Built := .ofEdges ⟨9⟩ _
  rcases evictTracked_makesRoom (fun _ => true) { store := crowded } hcheck crowding hbuilt
    [⟨9⟩] with ⟨answer, s', hrun, hroom⟩
  have hout : (evictTracked (fun _ => true) { store := crowded } [⟨9⟩] crowding).map
      (fun o => (o.1, o.2.store.shape.keys)) = .ok (true, [⟨1⟩, ⟨3⟩]) := by decide +kernel
  rw [hrun] at hout
  simp only [Except.map, Except.ok.injEq, Prod.mk.injEq] at hout
  rcases hout with ⟨rfl, hshape⟩
  exact ⟨hcheck, hbuilt, s', hrun, hshape, hroom⟩

end Step

end TreeWatch
