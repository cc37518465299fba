import TreeWatch.Proofs.Slots
import TreeWatch.Proofs.Walk

/-!
# Scenes Are Trees

A scene stores the parent and the children of a node in the node itself, so
nothing forces the two to agree but the way the mutations work. They do agree
in every scene that the mutations can make: the live nodes are one tree, and
each mutation that is not refused is one change of that tree (`Change`).

Destroying a node walks the child lists from the last child to the first. The
node was taken out of the list of its parent before, which does not matter to
the walk: it never leaves the subtree. Moving a node checks first that it does
not come to lie below itself, by a climb that is bounded by the number of
slots, and so is the number of nodes on any path.

## Main definitions

* `Scene.Sound`: The live nodes of a scene are a tree.
* `Scene.Change`: What a mutation that was not refused does.
* `Scene.Detaches`: The first half of a destruction.
* `Scene.Call`: A mutation with its arguments.

## Theorems

* `Scene.Sound.createRoot_spec`, `Scene.Sound.create_spec`,
  `Scene.Sound.destroy_spec`, `Scene.Sound.reparent_spec`,
  `Scene.Sound.repaint_spec`: What each mutation does.
* `Scene.Sound.call_spec`: All of them together.
-/

namespace TreeWatch

open Forest (Under under_iff_up)

namespace Scene

/-- The nodes of a scene are stored within bounds, they are one tree, and they
    are all there is to this tree. -/
structure Sound (s : Scene) (n : Nat) : Prop where
  stored : s.Stored n
  tree : Forest.IsTree s.root s.parent s.children
  live : ∀ h, s.contains h = true ↔ Forest.Held s.root s.parent h

theorem sound_empty : ({} : Scene).Sound 0 := by
  have hnode : ∀ h, ({} : Scene).node? h = none := fun h => rfl
  have hparent : ∀ h, ({} : Scene).parent h = none := fun h => rfl
  have hchildren : ∀ h, ({} : Scene).children h = [] := fun h => rfl
  refine ⟨⟨fun i hi => ?_, List.nodup_nil, Nat.le_refl 0, fun i slot hslot => ?_⟩,
    ⟨fun r hr => ?_, fun p c => ?_, fun p => ?_, fun h p hp => ?_⟩, fun h => ?_⟩
  · exact absurd hi List.not_mem_nil
  · exact absurd hslot (by simp only [Array.getElem?_empty, reduceCtorEq, not_false_eq_true])
  · exact hparent r
  · simp only [hchildren, hparent, List.not_mem_nil, reduceCtorEq]
  · rw [hchildren]
    exact List.nodup_nil
  · rw [hparent] at hp
    exact absurd hp (by simp only [reduceCtorEq, not_false_eq_true])
  · rw [contains, hnode, Forest.Held, hparent]
    simp only [Option.isSome_none, Bool.false_eq_true, reduceCtorEq, exists_false, or_self]

/-- The latest handle into each slot. -/
def places (s : Scene) : List Handle :=
  (List.range s.slots.size).map fun i =>
    Handle.ofParts i.toUInt32 ((s.slots[i]?.map Slot.generation).getD 0)

theorem length_places (s : Scene) : s.places.length = s.slots.size := by
  rw [places, List.length_map, List.length_range]

-- A live node is named by the latest handle into its slot.
theorem mem_places (s : Scene) (h : Handle) (hh : s.contains h = true) : h ∈ s.places := by
  rcases (s.contains_iff h).mp hh with ⟨n, hn⟩
  have hget := (s.node?_eq_some_iff h n).mp hn
  refine List.mem_map.mpr ⟨h.slot.toNat, ?_, ?_⟩
  · exact List.mem_range.mpr (Array.getElem?_eq_some_iff.mp hget).1
  · rw [hget]
    refine Handle.eq_of_parts _ _ ?_ ?_
    · rw [Handle.slot_ofParts]
      exact UInt32.ofNat_toNat
    · rw [Handle.generation_ofParts]
      rfl

section Views

variable (s s' : Scene)

theorem children_eq (h : Handle) :
    s.children h = ((s.node? h).map SceneNode.children).getD [] := by
  unfold children
  cases s.node? h <;> rfl

/-- A scene is read through what its handles name. -/
theorem views_congr (h : Handle) (hn : s'.node? h = s.node? h) :
    s'.parent h = s.parent h ∧ s'.children h = s.children h ∧ s'.contains h = s.contains h := by
  rw [parent, parent, children_eq, children_eq, contains, contains, hn]
  exact ⟨rfl, rfl, rfl⟩

/-- The views of a scene in which one more handle names a node. -/
theorem views_insert (h : Handle) (n : SceneNode)
    (hnode : ∀ x, s'.node? x = if h = x then some n else s.node? x) :
    (∀ x, s'.parent x = if h = x then n.parent else s.parent x) ∧
      (∀ x, s'.children x = if h = x then n.children else s.children x) ∧
      ∀ x, s'.contains x = true ↔ x = h ∨ s.contains x = true := by
  refine ⟨fun x => ?_, fun x => ?_, fun x => ?_⟩
  · rw [parent, parent, hnode]
    by_cases hx : h = x
    · rw [if_pos hx, if_pos hx, Option.bind_some]
    · rw [if_neg hx, if_neg hx]
  · rw [children_eq, children_eq, hnode]
    by_cases hx : h = x
    · rw [if_pos hx, if_pos hx, Option.map_some, Option.getD_some]
    · rw [if_neg hx, if_neg hx]
  · rw [contains, contains, hnode]
    by_cases hx : h = x
    · simp only [hx, if_true, Option.isSome_some, true_or]
    · simp only [hx, if_false, Ne.symm hx, false_or]

variable (h : Handle) (f : SceneNode → SceneNode) (x : Handle)

theorem contains_modify : (s.modify h f).contains x = s.contains x := by
  rw [contains, contains, node?_modify]
  split
  · rw [Option.isSome_map]
  · rfl

theorem parent_modify (hf : ∀ n, (f n).parent = n.parent) :
    (s.modify h f).parent x = s.parent x := by
  rw [parent, parent, node?_modify]
  split
  · cases s.node? x with
    | none => rfl
    | some n => exact hf n
  · rfl

/-- A change of the parent of a live node. -/
theorem parent_modify_live (hh : s.contains h = true) (p : Option Handle)
    (hf : ∀ n, (f n).parent = p) :
    (s.modify h f).parent x = if h = x then p else s.parent x := by
  rw [parent, parent, node?_modify]
  by_cases hx : h = x
  · subst hx
    rcases (s.contains_iff h).mp hh with ⟨n, hn⟩
    rw [if_pos rfl, if_pos rfl, hn]
    exact hf n
  · rw [if_neg hx, if_neg hx]

/-- A change of the child list of a live node. -/
theorem children_modify (hh : s.contains h = true) (g : List Handle → List Handle)
    (hf : ∀ n, (f n).children = g n.children) :
    (s.modify h f).children x = if h = x then g (s.children x) else s.children x := by
  rw [children_eq, children_eq, node?_modify]
  by_cases hx : h = x
  · subst hx
    rcases (s.contains_iff h).mp hh with ⟨n, hn⟩
    rw [if_pos rfl, if_pos rfl, hn]
    exact hf n
  · rw [if_neg hx, if_neg hx]

end Views

/-- Emptying several slots, one after the other. -/
theorem releaseAll_spec (dying : List Handle) (s : Scene) :
    (∀ x, (dying.foldl release s).node? x = if x ∈ dying then none else s.node? x) ∧
      (dying.foldl release s).root = s.root ∧ (dying.foldl release s).feed = s.feed ∧
      (∀ x, s.Issued x → (dying.foldl release s).Issued x) ∧
      ∀ n, s.Stored n → (dying.foldl release s).Stored n := by
  induction dying generalizing s with
  | nil => exact ⟨fun x => by simp only [List.foldl_nil, List.not_mem_nil, if_false], rfl, rfl,
      fun _ hx => hx, fun _ hs => hs⟩
  | cons h dying ih =>
      rcases ih (s.release h) with ⟨hnode, hroot, hfeed, hissued, hstored⟩
      refine ⟨fun x => ?_, hroot.trans (s.root_release h), hfeed.trans (s.feed_release h),
        fun x hx => hissued x (s.issued_release h x hx), fun n hs => hstored n (hs.release s h n)⟩
      rw [List.foldl_cons, hnode, node?_release]
      by_cases hx : x ∈ dying
      · rw [if_pos hx, if_pos (List.mem_cons_of_mem h hx)]
      · by_cases hxh : h = x
        · rw [if_neg hx, if_pos hxh, if_pos (hxh ▸ List.mem_cons_self)]
        · have hout : x ∉ h :: dying := by
            rw [List.mem_cons, not_or]
            exact ⟨Ne.symm hxh, hx⟩
          rw [if_neg hx, if_neg hxh, if_neg hout]

/-- What a mutation does to the tree, with the tasks it adds to the feed. -/
inductive Change (s s' : Scene) : List Task → Prop where
  /-- The root was created, under a handle that was never handed out. -/
  | founded (h : Handle) (hnone : s.root = none) (hfresh : ¬ s.Issued h)
    (hroot : s'.root = some h) (hup : ∀ x, s'.parent x = s.parent x)
    (hlive : ∀ x, s'.contains x = true ↔ x = h ∨ s.contains x = true) : Change s s' [.entered h]
  /-- A node was created below a live one. -/
  | joined (h p : Handle) (hfresh : ¬ s.Issued h) (hp : s.contains p = true)
    (hroot : s'.root = s.root) (hup : ∀ x, s'.parent x = if h = x then some p else s.parent x)
    (hlive : ∀ x, s'.contains x = true ↔ x = h ∨ s.contains x = true) : Change s s' [.entered h]
  /-- A node was destroyed with all below it. -/
  | died (h : Handle) (hh : s.contains h = true)
    (hroot : s'.root = if s.root = some h then none else s.root)
    (hlinks : Forest.Prunes s.parent s'.parent (Under s.parent · h))
    (hlive : ∀ x, s'.contains x = true ↔ s.contains x = true ∧ ¬ Under s.parent x h) :
    Change s s' [.left h]
  /-- A node that is not the root was moved. -/
  | moved (h p q : Handle) (hq : s.parent h = some q) (hroot : s'.root = s.root)
    (hup : ∀ x, s'.parent x = if h = x then some p else s.parent x)
    (hlive : ∀ x, s'.contains x = s.contains x) : Change s s' [.reparented h]
  /-- The order of siblings or attributes of nodes changed. -/
  | repainted (posts : List Task)
    (hposts : ∀ t ∈ posts, ∃ h kinds, t = .attributes h kinds) (hroot : s'.root = s.root)
    (hup : ∀ x, s'.parent x = s.parent x) (hlive : ∀ x, s'.contains x = s.contains x) :
    Change s s' posts

/-- A mutation led from one scene to another: the scene is a tree again, with
    `n` nodes created up to now, no handle is handed out anew, and the feed
    tells what changed. -/
structure Turns (s s' : Scene) (n : Nat) : Prop where
  sound : s'.Sound n
  issued : ∀ x, s.Issued x → s'.Issued x
  change : ∃ posts, s'.feed = s.feed ++ posts ∧ Change s s' posts

/-- A node is no longer in the list of its parent, or no longer the root. -/
def Detaches (s : Scene) (h : Handle) (s₁ : Scene) : Prop :=
  (∃ p, s.parent h = some p ∧ s₁ = s.unlist p h) ∨
    (s.parent h = none ∧ s₁ = { s with root := none })

section Mutations

variable (s : Scene) (n : Nat) (hs : s.Sound n)

include hs

-- A node that was never handed out is not live, has no parent and no children.
theorem Sound.fresh (h : Handle) (hfresh : ¬ s.Issued h) :
    s.contains h = false ∧ s.parent h = none ∧ s.root ≠ some h := by
  have hdead : s.contains h = false := by
    rw [← Bool.not_eq_true]
    exact fun hh => hfresh (s.issued_of_contains h hh)
  have hheld : ¬ Forest.Held s.root s.parent h := by
    rw [← hs.live, hdead]
    exact Bool.false_ne_true
  refine ⟨hdead, ?_, fun hr => hheld (Or.inl hr)⟩
  cases hp : s.parent h with
  | none => rfl
  | some p => exact absurd (Or.inr ⟨p, hp⟩) hheld

/-- A scene that differs in attributes and in the order of siblings is a tree
    as well. -/
theorem Sound.repaint (s' : Scene) (hstored : s'.Stored n) (hroot : s'.root = s.root)
    (hup : ∀ x, s'.parent x = s.parent x) (hlive : ∀ x, s'.contains x = s.contains x)
    (hkids : ∀ p, (s'.children p).Perm (s.children p)) : s'.Sound n := by
  refine ⟨hstored, ⟨fun r hr => ?_, fun p c => ?_, fun p => ?_, fun h p hp => ?_⟩, fun h => ?_⟩
  · rw [hup]
    exact hs.tree.root_up r (hroot ▸ hr)
  · rw [(hkids p).mem_iff, hs.tree.mem_kids, hup]
  · exact (hkids p).nodup_iff.mpr (hs.tree.nodup p)
  · rw [hup] at hp
    rcases hs.tree.rooted h p hp with ⟨r, hr, hu⟩
    exact ⟨r, hroot.trans hr, hu.mono fun x q hx => (hup x).trans hx⟩
  · rw [hlive, hs.live, Forest.Held, Forest.Held, hroot, hup]

/-- A scene that differs from a tree in one node, which is taken out of all lists
    and is the last child of another node now, is a tree as well. -/
theorem Sound.rehung (s' : Scene) (n' : Nat) (h p : Handle) (lists : Handle → List Handle)
    (hstored : s'.Stored n') (hp : s.contains p = true) (hnroot : s.root ≠ some h)
    (hph : ¬ Under s.parent p h) (hroot : s'.root = s.root)
    (hup : ∀ x, s'.parent x = if h = x then some p else s.parent x)
    (hlive : ∀ x, s'.contains x = true ↔ x = h ∨ s.contains x = true)
    (hkids : ∀ q, s'.children q = if p = q then lists q ++ [h] else lists q)
    (hmem : ∀ q c, c ∈ lists q ↔ c ≠ h ∧ c ∈ s.children q) (hnd : ∀ q, (lists q).Nodup) :
    s'.Sound n' := by
  have htree := hs.tree.rehang s'.parent s'.children p h ((hs.live p).mp hp) hnroot hph hup
    (fun q c => ?_) fun q => ?_
  · refine ⟨hstored, hroot ▸ htree, fun x => ?_⟩
    rw [hlive, hs.live, Forest.Held, Forest.Held, hroot, hup]
    by_cases hx : h = x
    · simp only [hx, if_true, true_or, Option.some.injEq, exists_eq', or_true]
    · simp only [hx, Ne.symm hx, if_false, false_or]
  · rw [hkids]
    by_cases hq : p = q
    · rw [if_pos hq, List.mem_append, List.mem_singleton, hmem]
      simp only [hq, true_and]
    · rw [if_neg hq, hmem]
      simp only [Ne.symm hq, false_and, or_false]
  · rw [hkids]
    by_cases hq : p = q
    · rw [if_pos hq]
      exact List.nodup_append'.mpr ⟨hnd q, List.nodup_singleton h,
        fun c hc hc' => ((hmem q c).mp hc).1 (List.mem_singleton.mp hc')⟩
    · rw [if_neg hq]
      exact hnd q

/-- Creating the root of an empty scene. -/
theorem Sound.createRoot_spec (label : String) (tag : Tag) (h : Handle) (s' : Scene)
    (hn : n + 1 < 2 ^ 32) (hok : s.createRoot label tag = .ok (h, s')) :
    s.Turns s' (n + 1) := by
  unfold createRoot at hok
  by_cases hr : s.root.isSome = true
  · rw [if_pos hr] at hok
    exact absurd hok (by simp only [reduceCtorEq, not_false_eq_true])
  · rw [if_neg hr] at hok
    rw [Option.isSome_iff_ne_none, not_not] at hr
    rcases hs.stored.allocate_spec s n hn { label := label, tag := tag, parent := none } with
      ⟨h', s₁, halloc, hstored, hfresh, hissued, hnode, _, hfeed⟩
    simp only [halloc, Except.ok.injEq, Prod.mk.injEq] at hok
    rcases hok with ⟨rfl, rfl⟩
    rcases hs.fresh s n h' hfresh with ⟨_, hnone, _⟩
    -- Without a root nothing had a parent, and nothing was live.
    have hempty := hs.tree.up_of_rootless hr
    rcases s.views_insert (notify { s₁ with root := some h' } (.entered h')) h' _ hnode with
      ⟨hup, hkids, hlive⟩
    have hup' : ∀ x, (notify { s₁ with root := some h' } (.entered h')).parent x = s.parent x := by
      intro x
      rw [hup, hempty, ite_self]
    have hkids' : ∀ p, (notify { s₁ with root := some h' } (.entered h')).children p = [] := by
      intro p
      rw [hkids]
      by_cases hp : h' = p
      · rw [if_pos hp]
      · rw [if_neg hp, List.eq_nil_iff_forall_not_mem]
        intro c hc
        rw [hs.tree.mem_kids, hempty] at hc
        exact absurd hc (by simp only [reduceCtorEq, not_false_eq_true])
    refine ⟨⟨hstored.of_slots _ _ _ rfl rfl,
      ⟨fun r _ => ?_, fun p c => ?_, fun p => ?_, fun x p hp => ?_⟩, fun x => ?_⟩, hissued,
      [.entered h'], ?_, .founded h' hr hfresh rfl hup' hlive⟩
    · rw [hup', hempty]
    · rw [hkids', hup', hempty]
      simp only [List.not_mem_nil, reduceCtorEq]
    · rw [hkids']
      exact List.nodup_nil
    · rw [hup', hempty] at hp
      exact absurd hp (by simp only [reduceCtorEq, not_false_eq_true])
    · rw [hlive, hs.live, Forest.Held, Forest.Held, hup', hempty, hr]
      simp only [notify, Option.some.injEq, reduceCtorEq, exists_false, or_false, eq_comm]
    · exact congrArg (· ++ [_]) hfeed

/-- A node that was never handed out is in no list and has none of its own. -/
theorem Sound.fresh_lists (h : Handle) (hfresh : ¬ s.Issued h) (q c : Handle) :
    c ∈ (if h = q then [] else s.children q) ↔ c ≠ h ∧ c ∈ s.children q := by
  rcases hs.fresh s n h hfresh with ⟨hdead, hnone, _⟩
  have hlisted : c ∈ s.children q → c ≠ h := by
    rintro hc rfl
    rw [hs.tree.mem_kids, hnone] at hc
    exact absurd hc (by simp only [reduceCtorEq, not_false_eq_true])
  by_cases hq : h = q
  · have hbarren : c ∉ s.children q := by
      intro hc
      have hheld := hs.tree.held_up c q ((hs.tree.mem_kids q c).mp hc)
      rw [← hs.live, ← hq, hdead] at hheld
      exact Bool.false_ne_true hheld
    simp only [if_pos hq, List.not_mem_nil, hbarren, and_false]
  · rw [if_neg hq]
    exact ⟨fun hc => ⟨hlisted hc, hc⟩, fun hc => hc.2⟩

/-- Creating a node as the last child of a live one. -/
theorem Sound.create_spec (p : Handle) (label : String) (tag : Tag) (h : Handle) (s' : Scene)
    (hn : n + 1 < 2 ^ 32) (hok : s.create p label tag = .ok (h, s')) : s.Turns s' (n + 1) := by
  unfold create at hok
  by_cases hp : s.contains p = true
  · simp only [hp, Bool.not_true, Bool.false_eq_true, if_false] at hok
    rcases hs.stored.allocate_spec s n hn { label := label, tag := tag, parent := some p } with
      ⟨h', s₁, halloc, hstored, hfresh, hissued, hnode, hroot, hfeed⟩
    simp only [halloc, Except.ok.injEq, Prod.mk.injEq] at hok
    rcases hok with ⟨rfl, rfl⟩
    rcases hs.fresh s n h' hfresh with ⟨hdead, _, hnroot⟩
    -- The views, first with the new node and then with the longer list as well.
    rcases s.views_insert s₁ h' _ hnode with ⟨hup, hkids, hlive⟩
    have hp₁ : s₁.contains p = true := (hlive p).mpr (Or.inr hp)
    generalize hlast : (fun n : SceneNode => { n with children := n.children ++ [h'] }) = last
    have hup' : ∀ x, ((s₁.modify p last).notify (.entered h')).parent x =
        if h' = x then some p else s.parent x := by
      intro x
      rw [← hup]
      exact s₁.parent_modify p last x fun _ => hlast ▸ rfl
    have hlive' : ∀ x, ((s₁.modify p last).notify (.entered h')).contains x = true ↔
        x = h' ∨ s.contains x = true := by
      intro x
      rw [← hlive, ← s₁.contains_modify p last x]
      rfl
    have hkids' : ∀ x, ((s₁.modify p last).notify (.entered h')).children x =
        if p = x then s₁.children x ++ [h'] else s₁.children x := fun x =>
      s₁.children_modify p last x hp₁ (· ++ [h']) fun _ => hlast ▸ rfl
    have hroot' : ((s₁.modify p last).notify (.entered h')).root = s.root :=
      (s₁.root_modify p last).trans hroot
    have hph : ¬ Under s.parent p h' := by
      intro hu
      have hheld := hs.tree.held_of_under p h' ((hs.live p).mp hp) hu
      rw [← hs.live, hdead] at hheld
      exact Bool.false_ne_true hheld
    have hsound := hs.rehung s n ((s₁.modify p last).notify (.entered h')) (n + 1) h' p s₁.children
      ((hstored.modify s₁ p last (n + 1)).of_slots _ _ _ rfl rfl) hp hnroot hph hroot' hup' hlive'
      hkids' (fun q c => ?_) fun q => ?_
    · refine ⟨hsound, fun x hx => s₁.issued_modify p last x (hissued x hx), [.entered h'], ?_,
        .joined h' p hfresh hp hroot' hup' hlive'⟩
      exact congrArg (· ++ [_]) ((s₁.feed_modify p last).trans hfeed)
    · rw [hkids]
      exact hs.fresh_lists s n h' hfresh q c
    · rw [hkids]
      split
      · exact List.nodup_nil
      · exact hs.tree.nodup q
  · simp only [hp, Bool.not_false, if_true, reduceCtorEq] at hok

/-- The nodes under a live node, as a destruction walks them, each once. The walk
    is the same after the node was taken out of the list of its parent, which
    does not lie under it, and it has no more steps than there are slots. -/
theorem Sound.dying_walk (h : Handle) (hh : s.contains h = true) (s₁ : Scene)
    (hsize : s₁.slots.size = s.slots.size)
    (hkids : ∀ x, s.parent h ≠ some x → s₁.children x = s.children x) :
    ∃ out, Forest.Walk (fun x => (s₁.children x).reverse) [h] out ∧ out.Nodup ∧
      out.length ≤ s₁.slots.size ∧ ∀ x, x ∈ out ↔ Under s.parent x h := by
  have htree := hs.tree.reverse
  rcases htree.exists_walk [h] with ⟨out, hw⟩
  have hmem : ∀ x, x ∈ out ↔ Under s.parent x h := by
    intro x
    rw [Forest.mem_walk htree [h] out hw]
    simp only [List.mem_singleton, exists_eq_left]
  have hnd := Forest.nodup_walk htree [h] out hw (List.pairwise_singleton _ h)
  have hplaces : ∀ x ∈ out, x ∈ s.places := by
    intro x hx
    refine s.mem_places x ((hs.live x).mpr ?_)
    exact Forest.held_of_above s.root s.parent x h ((hmem x).mp hx) ((hs.live h).mp hh)
  have hlen := (List.subperm_of_subset hnd hplaces).length_le
  rw [length_places, ← hsize] at hlen
  have hw₁ : Forest.Walk (fun x => (s₁.children x).reverse) [h] out :=
    hw.congr [h] out fun x hx => by
      rw [hkids x fun hp => hs.tree.acyclic h x hp ((hmem x).mp hx)]
  exact ⟨out, hw₁, hnd, hlen, hmem⟩

/-- The scene after a node was taken out of the list of its parent, or is no
    longer the root. -/
theorem Sound.unlist_spec (h : Handle) (hh : s.contains h = true) (s₁ : Scene)
    (hs₁ : s.Detaches h s₁) :
    s₁.Stored n ∧ (∀ x, s.Issued x → s₁.Issued x) ∧ s₁.feed = s.feed ∧
      s₁.slots.size = s.slots.size ∧ s₁.root = (if s.root = some h then none else s.root) ∧
      (∀ x, s₁.parent x = s.parent x) ∧ (∀ x, s₁.contains x = s.contains x) ∧
      (∀ q, s.parent h ≠ some q → s₁.children q = s.children q) ∧
      (∀ q c, c ∈ s₁.children q ↔ c ≠ h ∧ c ∈ s.children q) ∧ ∀ q, (s₁.children q).Nodup := by
  rcases hs₁ with ⟨p, hp, rfl⟩ | ⟨hp, rfl⟩
  · have hroot : s.root ≠ some h := hs.tree.root_ne h p hp
    have hpl : s.contains p = true := (hs.live p).mpr (hs.tree.held_up h p hp)
    have hlist : ∀ q, (s.unlist p h).children q =
        if p = q then (s.children q).filter (· ≠ h) else s.children q := fun q =>
      s.children_modify p _ q hpl (fun l => l.filter (· ≠ h)) fun _ => rfl
    -- The node is in the list of its parent and in no other.
    have hother : ∀ q c, p ≠ q → c ∈ s.children q → c ≠ h := by
      rintro q c hq hc rfl
      rw [hs.tree.mem_kids, hp, Option.some.injEq] at hc
      exact hq hc
    refine ⟨hs.stored.modify s p _ n, fun x hx => s.issued_modify p _ x hx, s.feed_modify p _,
      s.size_modify p _, ?_, fun x => s.parent_modify p _ x fun _ => rfl,
      fun x => s.contains_modify p _ x, fun q hq => ?_, fun q c => ?_, fun q => ?_⟩
    · rw [if_neg hroot]
      exact s.root_modify p _
    · have hpq : p ≠ q := fun he => hq (he ▸ hp)
      rw [hlist, if_neg hpq]
    · rw [hlist]
      by_cases hq : p = q
      · rw [if_pos hq, List.mem_filter, decide_eq_true_eq, and_comm]
      · rw [if_neg hq]
        exact ⟨fun hc => ⟨hother q c hq hc, hc⟩, fun hc => hc.2⟩
    · rw [hlist]
      split
      · exact (hs.tree.nodup q).filter _
      · exact hs.tree.nodup q
  · have hroot : s.root = some h := by
      rcases (hs.live h).mp hh with hr | ⟨p, hp'⟩
      · exact hr
      · rw [hp] at hp'
        exact absurd hp' (by simp only [reduceCtorEq, not_false_eq_true])
    refine ⟨hs.stored.of_slots _ _ _ rfl rfl, fun x hx => hx, rfl, rfl, ?_, fun _ => rfl,
      fun _ => rfl, fun _ _ => rfl, fun q c => ⟨fun hc => ⟨?_, hc⟩, fun hc => hc.2⟩, hs.tree.nodup⟩
    · rw [if_pos hroot]
    · rintro rfl
      have hcq := (hs.tree.mem_kids q c).mp hc
      rw [hp] at hcq
      exact absurd hcq (by simp only [reduceCtorEq, not_false_eq_true])

/-- How a live node is destroyed: it is taken out of its list, then the slots of
    all nodes under it are emptied, each once. -/
theorem Sound.destroy_cases (h : Handle) (k : Nat) (s' : Scene)
    (hok : s.destroy h = .ok (k, s')) :
    s.contains h = true ∧ ∃ (s₁ : Scene) (dying : List Handle), s.Detaches h s₁ ∧ dying.Nodup ∧
      (∀ x, x ∈ dying ↔ Under s.parent x h) ∧ k = dying.length ∧
      s' = dying.foldl release (s₁.notify (.left h)) := by
  unfold destroy at hok
  cases hn : s.node? h with
  | none => simp only [hn, reduceCtorEq] at hok
  | some node =>
      simp only [hn, Except.ok.injEq, Prod.mk.injEq] at hok
      have hh : s.contains h = true := (s.contains_iff h).mpr ⟨node, hn⟩
      have hparent : s.parent h = node.parent := by
        rw [parent, hn, Option.bind_some]
      -- The walk is the same, whichever way the node was taken out.
      have hsteps : ∃ s₁, s.Detaches h s₁ ∧
          let dying := Forest.preorder (fun x => (s₁.children x).reverse) s₁.slots.size [h]
          dying.length = k ∧ dying.foldl release (s₁.notify (.left h)) = s' := by
        cases hp : node.parent with
        | some p =>
            simp only [hp] at hok
            exact ⟨_, Or.inl ⟨p, hparent.trans hp, rfl⟩, hok⟩
        | none =>
            simp only [hp] at hok
            exact ⟨_, Or.inr ⟨hparent.trans hp, rfl⟩, hok⟩
      rcases hsteps with ⟨s₁, hs₁, hcount, hdone⟩
      rcases hs.unlist_spec s n h hh s₁ hs₁ with ⟨_, _, _, hsize₁, _, _, _, hkept₁, _, _⟩
      rcases hs.dying_walk s n h hh s₁ hsize₁ hkept₁ with ⟨dying, hw, hnd, hlen, hmem⟩
      rw [Forest.preorder_eq_of_walk [h] dying hw _ hlen] at hcount hdone
      exact ⟨hh, s₁, dying, hs₁, hnd, hmem, hcount.symm, hdone.symm⟩

/-- Destroying a live node with all below it. -/
theorem Sound.destroy_spec (h : Handle) (k : Nat) (s' : Scene)
    (hok : s.destroy h = .ok (k, s')) : s.Turns s' n := by
  rcases hs.destroy_cases s n h k s' hok with ⟨hh, s₁, dying, hs₁, _, hwalk, _, hdone⟩
  rcases hs.unlist_spec s n h hh s₁ hs₁ with
    ⟨hstored₁, hissued₁, hfeed₁, hsize₁, hroot₁, hup₁, hlive₁, hkept₁, hmem₁, hnd₁⟩
  rcases releaseAll_spec dying (s₁.notify (.left h)) with
    ⟨hnode, hroot, hfeed, hissued, hstored⟩
  rw [← hdone] at hnode hroot hfeed hissued hstored
  -- What a handle names afterwards: nothing if it died, the same otherwise.
  have hgone : ∀ x, Under s.parent x h → s'.node? x = none := by
    intro x hx
    rw [hnode, if_pos ((hwalk x).mpr hx)]
  have hstay : ∀ x, ¬ Under s.parent x h → s'.parent x = s₁.parent x ∧
      s'.children x = s₁.children x ∧ s'.contains x = s₁.contains x := by
    intro x hx
    refine views_congr s₁ s' x ?_
    rw [hnode, if_neg (mt (hwalk x).mp hx)]
    rfl
  have hlinks : Forest.Prunes s.parent s'.parent (Under s.parent · h) := by
    refine ⟨fun x p hp hu => (Under.of_up hp).trans hu, fun x hu => ?_, fun x hu => ?_⟩
    · rw [parent, hgone x hu]
      rfl
    · rw [(hstay x hu).1, hup₁]
  have hlive : ∀ x, s'.contains x = true ↔ s.contains x = true ∧ ¬ Under s.parent x h := by
    intro x
    by_cases hu : Under s.parent x h
    · rw [contains, hgone x hu]
      simp only [Option.isSome_none, Bool.false_eq_true, hu, not_true_eq_false, and_false]
    · rw [(hstay x hu).2.2, hlive₁]
      simp only [hu, not_false_eq_true, and_true]
  have hroot' : s'.root = if s.root = some h then none else s.root := hroot.trans hroot₁
  have hempty : ∀ q, Under s.parent q h → s'.children q = [] := by
    intro q hq
    rw [children_eq, hgone q hq]
    rfl
  have htree := hs.tree.cut h s'.parent s'.children hlinks hempty
    (fun q hq c => by rw [(hstay q hq).2.1, hmem₁]) fun q => by
      by_cases hq : Under s.parent q h
      · rw [hempty q hq]
        exact List.nodup_nil
      · rw [(hstay q hq).2.1]
        exact hnd₁ q
  refine ⟨⟨hstored n (hstored₁.of_slots _ _ _ rfl rfl), hroot' ▸ htree, fun x => ?_⟩,
    fun x hx => hissued x (hissued₁ x hx), [.left h], ?_, .died h hh hroot' hlinks hlive⟩
  · rw [hlive, hs.live, hroot']
    constructor
    · rintro ⟨hr | ⟨p, hp⟩, hu⟩
      · have hne : h ≠ x := fun he => hu (he ▸ Under.refl h)
        refine Or.inl ?_
        rw [hr, if_neg fun he => hne (Option.some.inj he).symm]
      · exact Or.inr ⟨p, (hlinks.kept x hu).trans hp⟩
    · rintro (hr | ⟨p, hp⟩)
      · by_cases hroot : s.root = some h
        · rw [if_pos hroot] at hr
          exact absurd hr (by simp only [reduceCtorEq, not_false_eq_true])
        · rw [if_neg hroot] at hr
          refine ⟨Or.inl hr, fun hu => hroot ?_⟩
          rw [hr, Forest.eq_of_under_top (hs.tree.root_up x hr) hu]
      · rcases hlinks.up_of_up x p hp with ⟨hp, hu⟩
        exact ⟨Or.inr ⟨p, hp⟩, hu⟩
  · rw [hfeed, notify, hfeed₁]

/-- The bounded climb finds a node above if no more nodes are on the way than the
    bound admits. -/
theorem Sound.liesBelow_of_under (h : Handle) (bound : Nat) (x : Handle)
    (hu : Under s.parent x h) (hb : Forest.level s.parent x ≤ bound + 1) :
    s.liesBelow h bound x = true := by
  induction bound generalizing x with
  | zero =>
      rcases (under_iff_up x h).mp hu with rfl | ⟨p, hp, _⟩
      · rw [liesBelow.eq_def]
        exact if_pos rfl
      · have hlt := hs.tree.level_lt x p hp
        have hpos : 0 < Forest.level s.parent p := (Set.ncard_pos).mpr ⟨p, Under.refl p⟩
        omega
  | succ k ih =>
      by_cases hx : x = h
      · rw [liesBelow.eq_def]
        exact if_pos hx
      · rcases (under_iff_up x h).mp hu with he | ⟨p, hp, hph⟩
        · exact absurd he hx
        · have hlt := hs.tree.level_lt x p hp
          have hstep : s.liesBelow h (k + 1) x = s.liesBelow h k p := by
            rw [liesBelow.eq_def]
            simp only [hx, hp, if_false]
          rw [hstep]
          exact ih p hph (by omega)

-- The bound of the check is the number of slots, and no path is longer.
theorem Sound.not_under_of_liesBelow (h p : Handle) (hp : s.contains p = true)
    (hfalse : s.liesBelow h s.slots.size p = false) : ¬ Under s.parent p h := by
  intro hu
  have hlevel := hs.tree.level_le s.places
    (fun x hx => s.mem_places x ((hs.live x).mpr hx)) p ((hs.live p).mp hp)
  rw [length_places] at hlevel
  rw [hs.liesBelow_of_under s n h _ p hu (by omega)] at hfalse
  exact Bool.false_ne_true hfalse.symm

/-- The three writes of a move: out of the old list, to the end of the new one,
    and the link. -/
theorem Sound.move_spec (h p q : Handle) (hq : s.parent h = some q) (hp : s.contains p = true)
    (hph : ¬ Under s.parent p h) (last relink : SceneNode → SceneNode)
    (hlast : last = fun n => { n with children := n.children ++ [h] })
    (hrelink : relink = fun n => { n with parent := some p }) :
    s.Turns ((((s.unlist q h).modify p last).modify h relink).notify (.reparented h)) n := by
  have hheld : Forest.Held s.root s.parent h := Or.inr ⟨q, hq⟩
  have hh : s.contains h = true := (hs.live h).mpr hheld
  have hroot : s.root ≠ some h := hs.tree.root_ne h q hq
  rcases hs.unlist_spec s n h hh (s.unlist q h) (Or.inl ⟨q, hq, rfl⟩) with
    ⟨hstored₁, hissued₁, hfeed₁, _, hroot₁, hup₁, hlive₁, _, hmem₁, hnd₁⟩
  rw [if_neg hroot] at hroot₁
  generalize s.unlist q h = s₁ at *
  have hlive₂ : ∀ x, (s₁.modify p last).contains x = s.contains x := fun x =>
    (s₁.contains_modify p last x).trans (hlive₁ x)
  have hh₂ : (s₁.modify p last).contains h = true := (hlive₂ h).trans hh
  have hup : ∀ x, (((s₁.modify p last).modify h relink).notify (.reparented h)).parent x =
      if h = x then some p else s.parent x := by
    intro x
    refine ((s₁.modify p last).parent_modify_live h relink x hh₂ (some p) fun _ =>
      hrelink ▸ rfl).trans ?_
    rw [s₁.parent_modify p last x fun _ => hlast ▸ rfl, hup₁]
  have hlive : ∀ x, (((s₁.modify p last).modify h relink).notify (.reparented h)).contains x =
      s.contains x := fun x =>
    ((s₁.modify p last).contains_modify h relink x).trans (hlive₂ x)
  have hkids : ∀ x, (((s₁.modify p last).modify h relink).notify (.reparented h)).children x =
      if p = x then s₁.children x ++ [h] else s₁.children x := by
    intro x
    refine ((s₁.modify p last).children_modify h relink x hh₂ id fun _ => hrelink ▸ rfl).trans ?_
    rw [id, ite_self]
    exact s₁.children_modify p last x ((hlive₁ p).trans hp) (· ++ [h]) fun _ => hlast ▸ rfl
  have hroot' : (((s₁.modify p last).modify h relink).notify (.reparented h)).root = s.root :=
    (((s₁.modify p last).root_modify h relink).trans (s₁.root_modify p last)).trans hroot₁
  have hlive' : ∀ x, (((s₁.modify p last).modify h relink).notify (.reparented h)).contains x =
      true ↔ x = h ∨ s.contains x = true := by
    intro x
    rw [hlive]
    exact ⟨Or.inr, fun hx => hx.elim (fun he => he ▸ hh) id⟩
  have hsound := hs.rehung s n (((s₁.modify p last).modify h relink).notify (.reparented h)) n h p
    s₁.children (((hstored₁.modify s₁ p last n).modify _ h relink n).of_slots _ _ _ rfl rfl) hp hroot
    hph hroot' hup hlive' hkids hmem₁ hnd₁
  refine ⟨hsound, fun x hx => ?_, [.reparented h], congrArg (· ++ [_]) ?_,
    .moved h p q hq hroot' hup hlive⟩
  · exact (s₁.modify p last).issued_modify h relink x
      (s₁.issued_modify p last x (hissued₁ x hx))
  · exact (((s₁.modify p last).feed_modify h relink).trans (s₁.feed_modify p last)).trans hfeed₁

/-- Moving a node to the end of the children of another parent. -/
theorem Sound.reparent_spec (h p : Handle) (s' : Scene) (hok : s.reparent h p = .ok s') :
    s.Turns s' n := by
  unfold reparent at hok
  cases hn : s.node? h with
  | none => simp only [hn, reduceCtorEq] at hok
  | some node =>
      have hparent : s.parent h = node.parent := by
        rw [parent, hn, Option.bind_some]
      have hh : s.contains h = true := (s.contains_iff h).mpr ⟨node, hn⟩
      cases hq : node.parent with
      | none => simp only [hn, hq, reduceCtorEq] at hok
      | some q =>
          simp only [hn, hq] at hok
          by_cases hp : s.contains p = true
          · cases hbelow : s.liesBelow h s.slots.size p with
            | true =>
                simp only [hp, hbelow, Bool.not_true, Bool.false_eq_true, if_false, if_true,
                  reduceCtorEq] at hok
            | false =>
                simp only [hp, hbelow, Bool.not_true, Bool.false_eq_true, if_false,
                  Except.ok.injEq] at hok
                exact hok ▸ hs.move_spec s n h p q (hparent.trans hq) hp
                  (hs.not_under_of_liesBelow s n h p hp hbelow) _ _ rfl rfl
          · simp only [hp, Bool.not_false, if_true, reduceCtorEq] at hok

/-- A change of one live node that keeps its parent, and its children up to their
    order. -/
theorem Sound.repaint_spec (h : Handle) (f : SceneNode → SceneNode) (s' : Scene)
    (posts : List Task) (hs' : s'.slots = (s.modify h f).slots ∧ s'.free = (s.modify h f).free ∧
      s'.root = (s.modify h f).root) (hfeed : s'.feed = s.feed ++ posts)
    (hposts : ∀ t ∈ posts, ∃ h kinds, t = .attributes h kinds)
    (hf : ∀ n, (f n).parent = n.parent)
    (hkids : ∀ n, s.node? h = some n → (f n).children.Perm n.children) : s.Turns s' n := by
  have hnode : ∀ x, s'.node? x = (s.modify h f).node? x := by
    intro x
    rw [node?, node?, hs'.1]
  have hroot := hs'.2.2.trans (s.root_modify h f)
  have hup : ∀ x, s'.parent x = s.parent x := by
    intro x
    rw [← s.parent_modify h f x hf, parent, parent, hnode]
  have hlive : ∀ x, s'.contains x = s.contains x := by
    intro x
    rw [← s.contains_modify h f x, contains, contains, hnode]
  have hperm : ∀ x, (s'.children x).Perm (s.children x) := by
    intro x
    rw [children_eq, children_eq, hnode, node?_modify]
    by_cases hx : h = x
    · subst hx
      rw [if_pos rfl]
      cases hn : s.node? h with
      | none => exact List.Perm.refl _
      | some n => exact hkids n hn
    · rw [if_neg hx]
  refine ⟨hs.repaint s n s' ((hs.stored.modify s h f n).of_slots _ _ _ hs'.1 hs'.2.1) hroot hup
    hlive hperm, fun x hx => ?_, posts, hfeed, .repainted posts hposts hroot hup hlive⟩
  rcases s.issued_modify h f x hx with ⟨slot, hslot, hle⟩
  exact ⟨slot, hs'.1 ▸ hslot, hle⟩

/-- Moving a node to the top of the paint order. -/
theorem Sound.raise_spec (h : Handle) (s' : Scene) (hok : s.raise h = .ok s') :
    s.Turns s' n := by
  unfold raise at hok
  have hposts : ∀ t ∈ ([] : List Task), ∃ h kinds, t = Task.attributes h kinds := fun t ht =>
    absurd ht List.not_mem_nil
  cases hn : s.node? h with
  | none => simp only [hn, reduceCtorEq] at hok
  | some node =>
      have hparent : s.parent h = node.parent := by
        rw [parent, hn, Option.bind_some]
      cases hp : node.parent with
      | none =>
          simp only [hn, hp, Except.ok.injEq] at hok
          subst hok
          exact ⟨hs, fun _ hx => hx, [], (List.append_nil _).symm,
            .repainted [] hposts rfl (fun _ => rfl) fun _ => rfl⟩
      | some p =>
          simp only [hn, hp, Except.ok.injEq] at hok
          subst hok
          refine hs.repaint_spec s n p _ _ [] ⟨rfl, rfl, rfl⟩ ?_ hposts (fun _ => rfl) ?_
          · rw [List.append_nil, feed_modify]
          · intro m hm
            have hkids : s.children p = m.children := by
              rw [children_eq, hm]
              rfl
            have hmem : h ∈ m.children := by
              rw [← hkids, hs.tree.mem_kids, hparent, hp]
            have hnd : m.children.Nodup := hkids ▸ hs.tree.nodup p
            -- The node is taken out once and comes back once.
            refine (List.perm_ext_iff_of_nodup ?_ hnd).mpr fun c => ?_
            · refine List.nodup_append'.mpr ⟨hnd.filter _, List.nodup_singleton h, ?_⟩
              intro c hc hc'
              rw [List.mem_filter, decide_eq_true_eq] at hc
              exact hc.2 (List.mem_singleton.mp hc')
            · rw [List.mem_append, List.mem_filter, decide_eq_true_eq, List.mem_singleton]
              by_cases hc : c = h
              · simp only [hc, hmem, or_true]
              · simp only [hc, ne_eq, not_false_eq_true, and_true, or_false]

/-- Renaming a node. -/
theorem Sound.setLabel_spec (h : Handle) (label : String) (s' : Scene)
    (hok : s.setLabel h label = .ok s') : s.Turns s' n := by
  unfold setLabel at hok
  by_cases hh : s.contains h = true
  · simp only [hh, if_true, Except.ok.injEq] at hok
    subst hok
    refine hs.repaint_spec s n h _ _ [.attributes h Attributes.label] ⟨rfl, rfl, rfl⟩ ?_ ?_
      (fun _ => rfl) fun _ _ => List.Perm.refl _
    · rw [notify, feed_modify]
    · intro t ht
      exact ⟨h, Attributes.label, List.mem_singleton.mp ht⟩
  · simp only [hh, Bool.false_eq_true, if_false, reduceCtorEq] at hok

/-- Replacing the flags of a node, which is told only if they differ. -/
theorem Sound.setFlags_spec (h : Handle) (flags : StateFlags) (k : Attributes) (s' : Scene)
    (hok : s.setFlags h flags = .ok (k, s')) : s.Turns s' n := by
  unfold setFlags at hok
  cases hn : s.node? h with
  | none => simp only [hn, reduceCtorEq] at hok
  | some node =>
      simp only [hn, Except.ok.injEq, Prod.mk.injEq] at hok
      rcases hok with ⟨rfl, hok⟩
      by_cases hk : (Attributes.ofTransition node.flags flags).isEmpty = true
      · rw [if_pos hk] at hok
        refine hs.repaint_spec s n h (fun n => { n with flags := flags }) s' []
          (hok ▸ ⟨rfl, rfl, rfl⟩) ?_ ?_ (fun _ => rfl) fun _ _ => List.Perm.refl _
        · rw [← hok, List.append_nil, feed_modify]
        · exact fun t ht => absurd ht List.not_mem_nil
      · rw [if_neg hk] at hok
        refine hs.repaint_spec s n h (fun n => { n with flags := flags }) s'
          [.attributes h (Attributes.ofTransition node.flags flags)] (hok ▸ ⟨rfl, rfl, rfl⟩) ?_ ?_
          (fun _ => rfl) fun _ _ => List.Perm.refl _
        · rw [← hok, notify, feed_modify]
        · intro t ht
          exact ⟨h, _, List.mem_singleton.mp ht⟩

end Mutations

/-- A mutation with its arguments. -/
inductive Call where
  | createRoot (label : String) (tag : Tag)
  | create (parent : Handle) (label : String) (tag : Tag)
  | destroy (node : Handle)
  | reparent (node parent : Handle)
  | raise (node : Handle)
  | setLabel (node : Handle) (label : String)
  | setFlags (node : Handle) (flags : StateFlags)
deriving DecidableEq

namespace Call

/-- The scene after a mutation, unless it is refused. -/
def run (s : Scene) : Call → Except Refusal Scene
  | createRoot label tag => (s.createRoot label tag).map Prod.snd
  | create parent label tag => (s.create parent label tag).map Prod.snd
  | destroy node => (s.destroy node).map Prod.snd
  | reparent node parent => s.reparent node parent
  | raise node => s.raise node
  | setLabel node label => s.setLabel node label
  | setFlags node flags => (s.setFlags node flags).map Prod.snd

/-- How many nodes a mutation creates. -/
def creates : Call → Nat
  | createRoot _ _ => 1
  | create _ _ _ => 1
  | _ => 0

end Call

-- A mutation with a result was made if it was made with some result.
theorem exists_of_map_snd {α : Type} (r : Except Refusal (α × Scene)) (s' : Scene)
    (hr : r.map Prod.snd = .ok s') : ∃ a, r = .ok (a, s') := by
  cases r with
  | error e => exact absurd hr (by simp only [Except.map, reduceCtorEq, not_false_eq_true])
  | ok o =>
      rw [Except.map, Except.ok.injEq] at hr
      exact ⟨o.1, hr ▸ rfl⟩

/-- A mutation that is not refused leads from one tree to another, as one
    change, as long as generations do not wrap around. -/
theorem Sound.call_spec (s : Scene) (n : Nat) (hs : s.Sound n) (c : Call) (s' : Scene)
    (hn : n + c.creates < 2 ^ 32) (hok : c.run s = .ok s') : s.Turns s' (n + c.creates) := by
  cases c with
  | createRoot label tag =>
      rcases exists_of_map_snd _ s' hok with ⟨h, hh⟩
      exact hs.createRoot_spec s n label tag h s' hn hh
  | create parent label tag =>
      rcases exists_of_map_snd _ s' hok with ⟨h, hh⟩
      exact hs.create_spec s n parent label tag h s' hn hh
  | destroy node =>
      rcases exists_of_map_snd _ s' hok with ⟨k, hk⟩
      exact hs.destroy_spec s n node k s' hk
  | reparent node parent => exact hs.reparent_spec s n node parent s' hok
  | raise node => exact hs.raise_spec s n node s' hok
  | setLabel node label => exact hs.setLabel_spec s n node label s' hok
  | setFlags node flags =>
      rcases exists_of_map_snd _ s' hok with ⟨k, hk⟩
      exact hs.setFlags_spec s n node flags k s' hk

end Scene

end TreeWatch
