import TreeWatch.Proofs.Generations
import TreeWatch.Scene.Op

/-!
# What an Operation Answers

An operation names its nodes by position, so it can be applied to any scene, and
it answers whether the scene changed. What is seen of a scene is its root and
the nodes that its handles name, each with its label, tag, flags and parent and
with its children in paint order. The scenes here are all that the mutations
make.

Most operations infer their answer from a mutation that was not refused. A new
node and a node that died are seen, and a node is not moved to the parent that it
has. Raising and renaming have no such check. They answer that the scene changed
whenever they pick a node, and `SceneOp.Idles` says when that is not true: the
picked node is on top already, which every root is, or has the new label already.

A change of flags is answered by the kinds that it touches, and only flags with a
name belong to a kind. So a change of the other bits is made and not answered,
which is what `SceneOp.Overlooks` says.

`SceneOp.guarded` is an operation that stops where an index is out of range or a
count leaves the range of a machine word. It never stops here.

## Main definitions

* `Scene.LooksLike`: Nothing that is seen of a scene differs.
* `Scene.Truthful`: The answer is true.
* `SceneOp.Idles`, `SceneOp.Overlooks`: The operations whose answer is not.
* `SceneOp.guarded`: An operation that stops at a fault.

## Theorems

* `Scene.looksLike_modify`: A change of a node is seen unless it gives the same
  node.
* `Scene.Stored.allocate_names`, `Scene.Stored.allocate_ne`: A new node is seen,
  and it does not have the handle of the last one in its slot.
* `Scene.Sound.raise_looksLike_iff`, `Scene.setLabel_looksLike_iff`,
  `Scene.setFlags_looksLike_iff`: When raising, renaming and new flags are seen.
* `Attributes.isEmpty_ofTransition_iff`: A change of flags touches no kind if and
  only if it changes no flag with a name.
* `Scene.Grown.truthful_iff`: An operation tells the truth if and only if it
  neither idles nor overlooks a change.
-/

namespace TreeWatch

namespace Scene

/-- What is seen of two scenes is the same: the root, and the node that each
    handle names. -/
structure LooksLike (s s' : Scene) : Prop where
  root : s'.root = s.root
  node : ∀ h, s'.node? h = s.node? h

/-- An answer that goes with a new scene is true if the scene was seen to change,
    and else nobody is notified. -/
structure Truthful (s : Scene) (o : Bool × Scene) : Prop where
  changed : o.1 = true ↔ ¬ s.LooksLike o.2
  quiet : o.1 = false → o.2.feed = s.feed

/-- The node is the last of its siblings, or it has no parent. -/
def OnTop (s : Scene) (h : Handle) : Prop := ∀ p ∈ s.parent h, (s.children p).getLast? = some h

instance (s : Scene) (h : Handle) : Decidable (s.OnTop h) :=
  inferInstanceAs (Decidable (∀ p ∈ s.parent h, (s.children p).getLast? = some h))

section Seen

variable (s s' : Scene)

theorem LooksLike.refl : s.LooksLike s := ⟨rfl, fun _ => rfl⟩

-- The feed is not seen.
theorem looksLike_notify (t : Task) : s.LooksLike (s'.notify t) ↔ s.LooksLike s' :=
  ⟨fun h => ⟨h.root, h.node⟩, fun h => ⟨h.root, h.node⟩⟩

/-- A change of a node is not seen if and only if it gives the same node. -/
theorem looksLike_modify (h : Handle) (f : SceneNode → SceneNode) :
    s.LooksLike (s.modify h f) ↔ ∀ n, s.node? h = some n → f n = n := by
  constructor
  · intro hl n hn
    have hnode := hl.node h
    rw [node?_modify, if_pos rfl, hn, Option.map_some, Option.some.injEq] at hnode
    exact hnode
  · intro hf
    refine ⟨s.root_modify h f, fun x => ?_⟩
    rw [node?_modify]
    by_cases hx : h = x
    · subst hx
      rw [if_pos rfl]
      cases hn : s.node? h with
      | none => rfl
      | some n => rw [Option.map_some, hf n hn]
    · rw [if_neg hx]

theorem truthful_false : s.Truthful (false, s) :=
  ⟨⟨fun h => absurd h Bool.false_ne_true, fun h => absurd (LooksLike.refl s) h⟩, fun _ => rfl⟩

theorem truthful_true (h : ¬ s.LooksLike s') : s.Truthful (true, s') :=
  ⟨⟨fun _ => h, fun _ => rfl⟩, fun hf => absurd hf.symm Bool.false_ne_true⟩

end Seen

section Allocate

variable (s : Scene) (node : SceneNode)

theorem root_allocate : (s.allocate node).2.root = s.root := by
  unfold allocate
  split <;> rfl

variable (n : Nat) (hs : s.Stored n) (hn : n < 2 ^ 32)

include hs hn

/-- A new node is named by a handle that named nothing, even if the generation of
    its slot wraps around. -/
theorem Stored.allocate_names :
    ∃ h s', s.allocate node = (h, s') ∧ s'.Stored (n + 1) ∧ s.node? h = none ∧
      (∀ x, s'.node? x = if h = x then some node else s.node? x) ∧ s'.root = s.root := by
  rcases hs.allocate_write s n hn node with ⟨h, s', hrun, hstored, hget, hwhere, hroot, _⟩
  have hempty : ∀ x, x.slot = h.slot → s.node? x = none := by
    intro x hslot
    rw [node?, hslot]
    rcases hwhere with ⟨hidx, _, _⟩ | ⟨old, hold, hnone, _, _⟩
    · rw [hidx, Array.getElem?_eq_none (Nat.le_refl _)]
    · simp only [hold, hnone, ite_self]
  exact ⟨h, s', hrun, hstored, hempty h rfl,
    s.node?_write s' _ _ hget h rfl rfl fun x hslot _ => hempty x hslot, hroot⟩

/-- A new node does not get the latest handle into a slot, whatever became of the
    node that had it. -/
theorem Stored.allocate_ne (x : Handle)
    (hx : s.slots[x.slot.toNat]?.map Slot.generation = some x.generation) :
    (s.allocate node).1 ≠ x := by
  rcases hs.allocate_write s n hn node with ⟨h, s', hrun, _, _, hwhere, _, _⟩
  rw [hrun]
  rintro rfl
  rcases hwhere with ⟨hidx, _, _⟩ | ⟨old, hold, _, hnext, _⟩
  · rw [hidx, Array.getElem?_eq_none (Nat.le_refl _)] at hx
    exact absurd hx (by simp only [Option.map_none, reduceCtorEq, not_false_eq_true])
  · rw [hold, Option.map_some, Option.some.injEq] at hx
    rw [← hx, ← UInt32.toNat_inj, UInt32.toNat_add] at hnext
    have hlt := old.generation.toNat_lt
    change old.generation.toNat = (old.generation.toNat + 1) % 2 ^ 32 at hnext
    omega

end Allocate

section Mutations

variable (s : Scene) (n : Nat) (hs : s.Sound n)

/-- Taking a node out of a list without repetition and putting it at the end
    changes nothing if and only if it was the last one. -/
theorem filter_ne_append_eq_iff (l : List Handle) (h : Handle) (hnd : l.Nodup) :
    l.filter (· ≠ h) ++ [h] = l ↔ l.getLast? = some h := by
  constructor
  · intro hl
    rw [← hl, List.getLast?_concat]
  · intro hl
    rcases List.getLast?_eq_some_iff.mp hl with ⟨front, rfl⟩
    have hout : h ∉ front := fun hh =>
      (List.nodup_append'.mp hnd).2.2 hh (List.mem_singleton_self h)
    have hkept : front.filter (· ≠ h) = front := by
      refine List.filter_eq_self.mpr fun x hx => decide_eq_true ?_
      exact fun he => hout (he ▸ hx)
    have hgone : [h].filter (· ≠ h) = [] :=
      List.filter_eq_nil_iff.mpr fun x hx => by
        simp only [List.mem_singleton.mp hx, ne_eq, not_true_eq_false, decide_false,
          Bool.false_eq_true, not_false_eq_true]
    rw [List.filter_append, hkept, hgone, List.append_nil]

include hs

/-- A live node can be raised, which is seen unless it is on top. -/
theorem Sound.raise_looksLike_iff (h : Handle) (hh : s.contains h = true) :
    ∃ s', s.raise h = .ok s' ∧ (s.LooksLike s' ↔ s.OnTop h) := by
  rcases (s.contains_iff h).mp hh with ⟨node, hnode⟩
  have hparent : s.parent h = node.parent := by
    rw [parent, hnode, Option.bind_some]
  unfold raise OnTop
  rw [hnode, hparent]
  dsimp only
  cases hp : node.parent with
  | none =>
      refine ⟨s, rfl, ⟨fun _ p hp => ?_, fun _ => LooksLike.refl s⟩⟩
      exact absurd hp.symm (Option.some_ne_none p)
  | some p =>
      rw [hp] at hparent
      have hlive := (hs.live p).mpr (hs.tree.held_up h p hparent)
      rcases (s.contains_iff p).mp hlive with ⟨above, habove⟩
      have hkids : s.children p = above.children := by
        rw [children_eq, habove]
        rfl
      have hnd : above.children.Nodup := hkids ▸ hs.tree.nodup p
      refine ⟨_, rfl, ?_⟩
      rw [looksLike_modify]
      simp only [habove, Option.some.injEq, forall_eq', Option.mem_def, hkids]
      rw [← filter_ne_append_eq_iff above.children h hnd]
      exact ⟨fun he => congrArg SceneNode.children he, fun he => by rw [he]⟩

omit hs in
/-- A live node can be renamed, which is seen unless it has the new label. -/
theorem setLabel_looksLike_iff (h : Handle) (label : String) (hh : s.contains h = true) :
    ∃ s', s.setLabel h label = .ok s' ∧ (s.LooksLike s' ↔ s.label h = some label) := by
  rcases (s.contains_iff h).mp hh with ⟨node, hnode⟩
  unfold setLabel
  rw [if_pos hh]
  refine ⟨_, rfl, ?_⟩
  rw [looksLike_notify, looksLike_modify, Scene.label, hnode]
  simp only [Option.some.injEq, forall_eq', Option.map_some]
  exact ⟨fun he => (congrArg SceneNode.label he).symm, fun he => by rw [← he]⟩

end Mutations

end Scene

namespace Attributes

/-- A change of flags touches no kind if and only if no flag with a name differs. -/
theorem isEmpty_ofTransition_iff (before after : StateFlags) :
    (ofTransition before after).isEmpty = true ↔ before.named = after.named := by
  have hbits : ∀ x : BitVec 8, (ofTransition ⟨x⟩ ⟨0⟩).isEmpty = true ↔ x &&& 0x3f = 0#8 := by
    decide
  have hxor : ofTransition before after = ofTransition ⟨before.bits ^^^ after.bits⟩ ⟨0⟩ := by
    simp only [ofTransition, BitVec.ofNat_eq_ofNat, BitVec.xor_zero]
  have hmask : (before.bits ^^^ after.bits) &&& 0x3f =
      before.bits &&& 0x3f ^^^ after.bits &&& 0x3f := by
    refine BitVec.eq_of_getLsbD_eq fun i _ => ?_
    simp only [BitVec.getLsbD_and, BitVec.getLsbD_xor, Bool.and_xor_distrib_right]
  rw [hxor, hbits, hmask, BitVec.xor_eq_zero_iff, StateFlags.named, StateFlags.named,
    StateFlags.mk.injEq]

end Attributes

namespace Scene

section Mutations

variable (s : Scene) (n : Nat) (hs : s.Sound n)

/-- The flags of a live node can be replaced, which is seen unless it has them. The
    kinds that are answered are empty if no flag with a name differs, and then
    nobody is notified. -/
theorem setFlags_looksLike_iff (h : Handle) (flags : StateFlags) (hh : s.contains h = true) :
    ∃ before kinds s', s.flags h = some before ∧ s.setFlags h flags = .ok (kinds, s') ∧
      (s.LooksLike s' ↔ before = flags) ∧
      (kinds.isEmpty = true ↔ before.named = flags.named) ∧
      (kinds.isEmpty = true → s'.feed = s.feed) := by
  rcases (s.contains_iff h).mp hh with ⟨node, hnode⟩
  have hseen : s.LooksLike (s.modify h fun n => { n with flags := flags }) ↔
      node.flags = flags := by
    rw [looksLike_modify]
    simp only [hnode, Option.some.injEq, forall_eq']
    exact ⟨fun he => (congrArg SceneNode.flags he).symm, fun he => by rw [← he]⟩
  have hflags : s.flags h = some node.flags := by
    rw [Scene.flags, hnode, Option.map_some]
  unfold setFlags
  rw [hnode]
  refine ⟨node.flags, _, _, hflags, rfl, ?_,
    Attributes.isEmpty_ofTransition_iff node.flags flags, fun hk => ?_⟩
  · by_cases hk : (Attributes.ofTransition node.flags flags).isEmpty = true
    · rw [if_pos hk, hseen]
    · rw [if_neg hk, looksLike_notify, hseen]
  · rw [if_pos hk, feed_modify]

/-- A node under a live parent is created, which is seen. -/
theorem Stored.create_truthful (hstored : s.Stored n) (hn : n < 2 ^ 32) (p : Handle)
    (label : String) (tag : Tag) (hp : s.contains p = true) :
    s.Truthful (SceneOp.made s (s.create p label tag)) := by
  rcases hstored.allocate_names s { label := label, tag := tag, parent := some p } n hn with
    ⟨h, s₁, halloc, _, hnone, hnames, _⟩
  unfold create
  simp only [hp, Bool.not_true, Bool.false_eq_true, if_false, halloc]
  refine truthful_true s _ fun hl => ?_
  have hlive : s₁.contains h = true := by
    rw [contains, hnames, if_pos rfl]
    rfl
  rw [looksLike_notify] at hl
  rw [← contains_modify s₁ p _ h, (views_congr s _ h (hl.node h)).2.2, contains, hnone] at hlive
  exact Bool.false_ne_true hlive

-- The root is created if there is none.
theorem createRoot_eq (label : String) (tag : Tag) (h : Handle) (s₁ : Scene)
    (halloc : s.allocate { label := label, tag := tag, parent := none } = (h, s₁))
    (hr : s.root = none) :
    s.createRoot label tag = .ok (h, notify { s₁ with root := some h } (.entered h)) := by
  unfold createRoot
  simp only [hr, Option.isSome_none, Bool.false_eq_true, if_false, halloc]

/-- A root is created if there is none, which is seen. -/
theorem Stored.createRoot_truthful (hstored : s.Stored n) (hn : n < 2 ^ 32) (label : String)
    (tag : Tag) (hr : s.root = none) :
    s.Truthful (SceneOp.made s (s.createRoot label tag)) := by
  rcases hstored.allocate_names s { label := label, tag := tag, parent := none } n hn with
    ⟨h, s₁, halloc, _⟩
  rw [s.createRoot_eq label tag h s₁ halloc hr]
  refine truthful_true s _ fun hl => Option.some_ne_none h ?_
  exact hl.root.trans hr

theorem root_made_create (p : Handle) (label : String) (tag : Tag) :
    (SceneOp.made s (s.create p label tag)).2.root = s.root := by
  unfold create
  cases s.contains p with
  | false => rfl
  | true => exact (root_modify _ p _).trans (s.root_allocate _)

include hs

/-- A live node is destroyed, which is seen. -/
theorem Sound.destroy_truthful (h : Handle) (hh : s.contains h = true) :
    s.Truthful (SceneOp.made s (s.destroy h)) := by
  cases hok : s.destroy h with
  | error e => exact truthful_false s
  | ok o =>
      have hkills := (hs.kills s n h o.1 o.2 hok).2
      refine truthful_true s o.2 fun hl => ?_
      have hlive := (views_congr s o.2 h (hl.node h)).2.2
      rw [hh, hkills.contains] at hlive
      exact hlive.2 (Forest.Under.refl h)

omit hs in
/-- A node that is moved gets a parent that it did not have, which is seen. -/
theorem reparent_truthful (h p : Handle) (hp : s.parent h ≠ some p) :
    s.Truthful (SceneOp.done s (s.reparent h p)) := by
  unfold reparent
  cases hnode : s.node? h with
  | none => exact truthful_false s
  | some node =>
      dsimp only
      cases node.parent with
      | none => exact truthful_false s
      | some q =>
          dsimp only
          cases s.contains p with
          | false => exact truthful_false s
          | true =>
              cases s.liesBelow h s.slots.size p with
              | true => exact truthful_false s
              | false =>
                  refine truthful_true s _ fun hl => hp ?_
                  have hh : s.contains h = true := (s.contains_iff h).mpr ⟨node, hnode⟩
                  rw [looksLike_notify] at hl
                  rw [← (views_congr s _ h (hl.node h)).1]
                  refine (parent_modify_live _ h _ h ?_ (some p) fun _ => rfl).trans (if_pos rfl)
                  rw [contains_modify, unlist, contains_modify, hh]

/-- The root can be destroyed. The slot that it had keeps its generation. -/
theorem Sound.destroy_root (r : Handle) (hr : s.root = some r) :
    ∃ k m, s.destroy r = .ok (k, m) ∧ m.Sound n ∧ m.root = none ∧
      m.slots[r.slot.toNat]?.map Slot.generation = some r.generation := by
  have hh : s.contains r = true := (hs.live r).mpr (Or.inl hr)
  rcases (s.contains_iff r).mp hh with ⟨node, hnode⟩
  have hok : ∃ k m, s.destroy r = .ok (k, m) := by
    unfold destroy
    rw [hnode]
    exact ⟨_, _, rfl⟩
  rcases hok with ⟨k, m, hok⟩
  refine ⟨k, m, hok, (hs.destroy_spec s n r k m hok).sound, ?_, ?_⟩
  · rcases hs.destroy_cases s n r k m hok with ⟨_, s₁, dying, hs₁, _, _, _, hm⟩
    rcases hs.unlist_spec s n r hh s₁ hs₁ with ⟨_, _, _, _, hroot, _⟩
    rw [hm, (releaseAll_spec dying _).2.1, notify, hroot, if_pos hr]
  · have hfades := InPlace.Quiet.destroy r s
    rw [hs.destroy_inPlace, hok] at hfades
    refine (hfades.generation _).trans ?_
    rw [(s.node?_eq_some_iff r node).mp hnode, Option.map_some]

-- What is left to do once the old scene is gone.
omit hs in
theorem renew_of_destroy (r : Handle) (hr : s.root = some r) (k : Nat) (m : Scene)
    (hok : s.destroy r = .ok (k, m)) (hnone : m.root = none) :
    SceneOp.renew s = SceneOp.renew m := by
  unfold SceneOp.renew
  rw [hr, hnone]
  dsimp only
  rw [hok]
  rfl

/-- A fresh root is seen, since it does not get the handle of the old one. -/
theorem Sound.renew_truthful (hn : n < 2 ^ 32) : s.Truthful (SceneOp.renew s) := by
  -- The scene `m` without a root, in which the fresh one is created.
  have hfounded : ∀ m : Scene, m.Sound n → m.root = none →
      (∀ r, s.root = some r →
        m.slots[r.slot.toNat]?.map Slot.generation = some r.generation) →
      s.Truthful (SceneOp.renew m) := by
    intro m hm hnone hold
    rcases hm.stored.allocate_names m { label := "root", tag := Tag.root, parent := none } n hn with
      ⟨h, s₁, halloc, _⟩
    unfold SceneOp.renew
    rw [hnone]
    simp only [m.createRoot_eq "root" Tag.root h s₁ halloc hnone]
    refine truthful_true s _ fun hl => ?_
    have hroot : s.root = some h := (hl.root.symm.trans (root_made_create _ _ _ _))
    have hne := hm.stored.allocate_ne m { label := "root", tag := Tag.root, parent := none } n hn h
      (hold h hroot)
    rw [halloc] at hne
    exact hne rfl
  cases hr : s.root with
  | none => exact hfounded s hs hr fun r hr' => absurd (hr'.symm.trans hr) (Option.some_ne_none r)
  | some r =>
      rcases hs.destroy_root s n r hr with ⟨k, m, hok, hm, hnone, hold⟩
      rw [s.renew_of_destroy r hr k m hok hnone]
      refine hfounded m hm hnone fun r' hr' => ?_
      rw [hr, Option.some.injEq] at hr'
      exact hr' ▸ hold

end Mutations

end Scene

namespace SceneOp

open Scene (Truthful LooksLike truthful_false)

/-- The operation answers that the scene changed, and it did not: the picked node
    is on top already, or has the new label already. -/
def Idles (s : Scene) : SceneOp → Prop
  | raise target => ∃ h ∈ pick s.handles target, s.OnTop h
  | rename target =>
    ∃ h ∈ pick s.handles target, s.label h = some ("renamed" ++ Nat.repr h.slot.toNat)
  | _ => False

/-- The operation answers that the scene did not change, and it did: the picked
    node gets flags that differ from its own in bits without a name only. -/
def Overlooks (s : Scene) : SceneOp → Prop
  | setFlags target flags =>
    ∃ h ∈ pick s.handles target, ∃ before ∈ s.flags h, before ≠ flags ∧ before.named = flags.named
  | _ => False

-- The position is in range unless the list is empty.
theorem eq_nil_of_pick (l : List Handle) (i : Nat) (hi : pick l i = none) : l = [] := by
  rw [pick, List.getElem?_eq_none_iff] at hi
  by_contra hne
  exact absurd (Nat.mod_lt i (List.length_pos_iff.mpr hne)) (Nat.not_lt.mpr hi)

section Sound

variable (s : Scene) (n : Nat) (hs : s.Sound n)

include hs

theorem contains_of_pick (i : Nat) (h : Handle) (hi : pick s.handles i = some h) :
    s.contains h = true :=
  ((hs.walk_handles s n).2.2 h).mp (List.mem_of_getElem? hi)

-- A position picks no node only in an empty scene.
theorem root_eq_none_of_pick (i : Nat) (hi : pick s.handles i = none) : s.root = none := by
  cases hr : s.root with
  | none => rfl
  | some r =>
      have hmem := ((hs.walk_handles s n).2.2 r).mpr ((hs.live r).mpr (Or.inl hr))
      rw [eq_nil_of_pick _ _ hi] at hmem
      exact absurd hmem List.not_mem_nil

/-- An operation that neither idles nor overlooks a change tells the truth. -/
theorem truthful_of_not_idles (hn : n < 2 ^ 32) (op : SceneOp) (hidle : ¬ op.Idles s)
    (hsees : ¬ op.Overlooks s) : s.Truthful (op.apply s) := by
  have hlive := contains_of_pick s n hs
  cases op with
  | create parent tag =>
      simp only [apply]
      cases hp : pick s.handles parent with
      | some p => exact hs.stored.create_truthful s n hn p _ tag (hlive parent p hp)
      | none =>
          exact hs.stored.createRoot_truthful s n hn "root" Tag.root
            (root_eq_none_of_pick s n hs parent hp)
  | destroy target =>
      simp only [apply]
      cases hp : pick s.handles target with
      | none => exact truthful_false s
      | some h =>
          dsimp only
          by_cases hr : s.root = some h
          · rw [if_pos hr]
            exact truthful_false s
          · rw [if_neg hr]
            exact hs.destroy_truthful s n h (hlive target h hp)
  | reparent target parent =>
      simp only [apply]
      cases pick s.handles target with
      | none => exact truthful_false s
      | some h =>
          cases pick s.handles parent with
          | none => exact truthful_false s
          | some p =>
              dsimp only
              by_cases hp : s.parent h = some p
              · rw [if_pos hp]
                exact truthful_false s
              · rw [if_neg hp]
                exact s.reparent_truthful h p hp
  | raise target =>
      simp only [apply]
      cases hp : pick s.handles target with
      | none => exact truthful_false s
      | some h =>
          rcases hs.raise_looksLike_iff s n h (hlive target h hp) with ⟨s', hok, hiff⟩
          dsimp only
          rw [hok]
          exact s.truthful_true s' fun hl => hidle ⟨h, hp, hiff.mp hl⟩
  | setFlags target flags =>
      simp only [apply]
      cases hp : pick s.handles target with
      | none => exact truthful_false s
      | some h =>
          rcases s.setFlags_looksLike_iff h flags (hlive target h hp) with
            ⟨before, kinds, s', hbefore, hok, hiff, hkinds, hquiet⟩
          dsimp only
          rw [hok]
          cases hk : kinds.isEmpty with
          | true =>
              -- No flag with a name differs, hence no flag does.
              have hsame : before = flags := by
                by_contra hne
                exact hsees ⟨h, hp, before, hbefore, hne, hkinds.mp hk⟩
              refine ⟨⟨fun hf => ?_, fun hl => absurd (hiff.mpr hsame) hl⟩, fun _ => hquiet hk⟩
              simp only [hk, Bool.not_true, Bool.false_eq_true] at hf
          | false =>
              simp only [hk, Bool.not_false]
              refine s.truthful_true s' fun hl => ?_
              rw [hkinds.mpr (congrArg StateFlags.named (hiff.mp hl))] at hk
              exact Bool.false_ne_true hk.symm
  | rename target =>
      simp only [apply]
      cases hp : pick s.handles target with
      | none => exact truthful_false s
      | some h =>
          rcases s.setLabel_looksLike_iff h _ (hlive target h hp) with ⟨s', hok, hiff⟩
          dsimp only
          rw [hok]
          exact s.truthful_true s' fun hl => hidle ⟨h, hp, hiff.mp hl⟩
  | replaceRoot => exact hs.renew_truthful s n hn

/-- An operation that idles answers that the scene changed. -/
theorem looksLike_of_idles (op : SceneOp) (hidle : op.Idles s) :
    (op.apply s).1 = true ∧ s.LooksLike (op.apply s).2 := by
  cases op with
  | raise target =>
      rcases hidle with ⟨h, hp, hh⟩
      rcases hs.raise_looksLike_iff s n h (contains_of_pick s n hs target h hp) with
        ⟨s', hok, hiff⟩
      simp only [apply, Option.mem_def.mp hp, hok]
      exact ⟨rfl, hiff.mpr hh⟩
  | rename target =>
      rcases hidle with ⟨h, hp, hh⟩
      rcases s.setLabel_looksLike_iff h ("renamed" ++ Nat.repr h.slot.toNat)
        (contains_of_pick s n hs target h hp) with ⟨s', hok, hiff⟩
      simp only [apply, Option.mem_def.mp hp, hok]
      exact ⟨rfl, hiff.mpr hh⟩
  | _ => exact hidle.elim

/-- An operation that overlooks a change answers that there was none, and nobody is
    notified. -/
theorem not_looksLike_of_overlooks (op : SceneOp) (hover : op.Overlooks s) :
    (op.apply s).1 = false ∧ ¬ s.LooksLike (op.apply s).2 ∧ (op.apply s).2.feed = s.feed := by
  cases op with
  | setFlags target flags =>
      rcases hover with ⟨h, hp, before, hbefore, hne, hnamed⟩
      rcases s.setFlags_looksLike_iff h flags (contains_of_pick s n hs target h hp) with
        ⟨before', kinds, s', hbefore', hok, hiff, hkinds, hquiet⟩
      rw [Option.mem_def.mp hbefore, Option.some.injEq] at hbefore'
      subst hbefore'
      have hk := hkinds.mpr hnamed
      simp only [apply, Option.mem_def.mp hp, hok, hk]
      exact ⟨rfl, fun hl => hne (hiff.mp hl), hquiet hk⟩
  | _ => exact hover.elim

/-- Nobody is notified of an operation that answers that nothing changed. -/
theorem feed_apply_of_false (hn : n < 2 ^ 32) (op : SceneOp) (hfalse : (op.apply s).1 = false) :
    (op.apply s).2.feed = s.feed := by
  by_cases hidle : op.Idles s
  · rw [(looksLike_of_idles s n hs op hidle).1] at hfalse
    exact absurd hfalse.symm Bool.false_ne_true
  · by_cases hover : op.Overlooks s
    · exact (not_looksLike_of_overlooks s n hs op hover).2.2
    · exact (truthful_of_not_idles s n hs hn op hidle hover).quiet hfalse

end Sound

end SceneOp

namespace SceneOp

/-- The positions that an operation names. -/
def positions : SceneOp → List Nat
  | create parent _ => [parent]
  | destroy target => [target]
  | reparent target parent => [target, parent]
  | raise target => [target]
  | setFlags target _ => [target]
  | rename target => [target]
  | replaceRoot => []

namespace Guarded

/-- The node at a position, counted around the end. Nothing is looked up in an empty
    list, and else the index has to be in range. -/
def pick (handles : List Handle) (i : Nat) : Except Fault (Option Handle) :=
  if handles.isEmpty then return none
  else
    match handles[i % handles.length]? with
    | some h => return some h
    | none => throw (.indexOutOfRange (i % handles.length) handles.length)

/-- Destroy the whole scene and build a fresh root with one child. -/
def renew (s : Scene) : Except Fault (Bool × Scene) := do
  let s ← match s.root with
    | some old => (fun r => (made s r).2) <$> Scene.Guarded.destroy s old
    | none => pure s
  match ← Scene.Guarded.createRoot s "root" Tag.root with
  | .ok (root, s) =>
    return (true, (made s (← Scene.Guarded.create s root "content" Tag.item)).2)
  | .error _ => return (false, s)

end Guarded

/-- Apply an operation with mutations that stop, after its nodes were picked. -/
def guarded (op : SceneOp) (s : Scene) : Except Fault (Bool × Scene) := do
  let handles := s.handles
  let _ ← op.positions.mapM (Guarded.pick handles)
  match op with
  | create parent tag =>
    match pick handles parent with
    | some p => made s <$> Scene.Guarded.create s p ("n" ++ Nat.repr handles.length) tag
    | none => made s <$> Scene.Guarded.createRoot s "root" Tag.root
  | destroy target =>
    match pick handles target with
    | some h => if s.root = some h then return (false, s) else made s <$> Scene.Guarded.destroy s h
    | none => return (false, s)
  | replaceRoot => Guarded.renew s
  | op => return op.apply s

end SceneOp

namespace Scene

/-- A root that is created is one node more. -/
theorem Stored.of_createRoot (s : Scene) (n : Nat) (hs : s.Stored n) (hn : n < 2 ^ 32)
    (label : String) (tag : Tag) (h : Handle) (s' : Scene)
    (hok : s.createRoot label tag = .ok (h, s')) :
    s'.Stored (n + 1) ∧ s'.live = s.live + 1 := by
  cases hr : s.root with
  | some r =>
      unfold createRoot at hok
      rw [hr] at hok
      exact absurd hok (by simp only [Option.isSome_some, if_true, reduceCtorEq, not_false_eq_true])
  | none =>
      rcases hs.allocate_names s { label := label, tag := tag, parent := none } n hn with
        ⟨h₁, s₁, halloc, hstored, _⟩
      have hlive := s.live_allocate { label := label, tag := tag, parent := none }
      rw [halloc] at hlive
      rw [s.createRoot_eq label tag h₁ s₁ halloc hr, Except.ok.injEq, Prod.mk.injEq] at hok
      exact hok.2 ▸ ⟨hstored.of_slots s₁ _ _ rfl rfl, hlive⟩

end Scene

namespace SceneOp

-- Every position is in range.
theorem Guarded.pick_eq (handles : List Handle) (i : Nat) :
    Guarded.pick handles i = .ok (SceneOp.pick handles i) := by
  unfold Guarded.pick SceneOp.pick
  cases handles with
  | nil => rfl
  | cons h rest =>
      have hlt : i % (h :: rest).length < (h :: rest).length :=
        Nat.mod_lt i (Nat.succ_pos rest.length)
      rw [List.getElem?_eq_getElem hlt]
      rfl

section Guards

variable (s : Scene) (n : Nat) (hs : s.Sound n) (hc : s.Counted) (hn : n < 2 ^ 32)

include hs hc hn

theorem Guarded.renew_eq : Guarded.renew s = .ok (SceneOp.renew s) := by
  have hfounded : ∀ m : Scene, m.Sound n → m.Counted → m.root = none →
      Guarded.renew m = .ok (SceneOp.renew m) := by
    intro m hm hcounted hnone
    have hlive : m.live ≤ n := (hcounted.live_le m).trans hm.stored.few
    unfold Guarded.renew SceneOp.renew
    rw [hnone]
    dsimp only
    rw [pure_bind, Scene.Guarded.createRoot_eq m n hm.stored (by omega)]
    cases hok : m.createRoot "root" Tag.root with
    | error e => rfl
    | ok o =>
        rcases hm.stored.of_createRoot m n hn _ _ o.1 o.2 hok with ⟨hstored, hmore⟩
        change (do return (true,
          (made o.2 (← Scene.Guarded.create o.2 o.1 "content" Tag.item)).2)) = _
        rw [Scene.Guarded.create_eq o.2 (n + 1) hstored (by omega)]
        rfl
  cases hr : s.root with
  | none => exact hfounded s hs hc hr
  | some r =>
      rcases hs.destroy_root s n r hr with ⟨k, m, hok, hm, hnone, _⟩
      have hcounted := (Scene.Tallies.destroy s m r k hok).counted n hs.stored hn hc
      have hcleared : Guarded.renew s = Guarded.renew m := by
        unfold Guarded.renew
        rw [hr, hnone]
        dsimp only
        rw [Scene.Guarded.destroy_eq s n hs.stored hn hc, hok]
        rfl
      rw [hcleared, s.renew_of_destroy r hr k m hok hnone]
      exact hfounded m hm hcounted hnone

/-- No index is out of range, and no count leaves the range of a machine word. -/
theorem guarded_eq (op : SceneOp) : op.guarded s = .ok (op.apply s) := by
  have hlive : s.live ≤ 2 ^ 32 := (hc.live_le s).trans (hs.stored.few.trans hn.le)
  have hpicks : op.positions.mapM (Guarded.pick s.handles) =
      .ok (op.positions.map (SceneOp.pick s.handles)) := by
    have hpick : Guarded.pick s.handles = fun i => pure (SceneOp.pick s.handles i) :=
      funext (Guarded.pick_eq s.handles)
    rw [hpick]
    exact List.mapM_pure
  unfold guarded
  dsimp only
  rw [hpicks]
  cases op with
  | create parent tag =>
      simp only [apply, bind, Except.bind]
      cases SceneOp.pick s.handles parent with
      | some p =>
          dsimp only
          rw [Scene.Guarded.create_eq s n hs.stored hlive]
          rfl
      | none =>
          dsimp only
          rw [Scene.Guarded.createRoot_eq s n hs.stored hlive]
          rfl
  | destroy target =>
      simp only [apply, bind, Except.bind]
      cases SceneOp.pick s.handles target with
      | none => rfl
      | some h =>
          dsimp only
          by_cases hr : s.root = some h
          · rw [if_pos hr, if_pos hr]
            rfl
          · rw [if_neg hr, if_neg hr, Scene.Guarded.destroy_eq s n hs.stored hn hc]
            rfl
  | replaceRoot => exact Guarded.renew_eq s n hs hc hn
  | _ => rfl

end Guards

end SceneOp

namespace Scene

/-- Every operation goes through on every scene that the mutations make. Its
    answer is true if and only if it neither idles nor overlooks a change, and if it
    answers that nothing changed, nobody is notified. If it idles, it answers that
    the scene changed although it looks as before. If it overlooks a change, it
    answers that there was none. -/
theorem Grown.truthful_iff (s : Scene) (n : Nat) (hs : s.Grown n) (op : SceneOp) :
    op.guarded s = .ok (op.apply s) ∧
      (s.Truthful (op.apply s) ↔ ¬ op.Idles s ∧ ¬ op.Overlooks s) ∧
      ((op.apply s).1 = false → (op.apply s).2.feed = s.feed) ∧
      (op.Idles s → (op.apply s).1 = true ∧ s.LooksLike (op.apply s).2) ∧
      (op.Overlooks s → (op.apply s).1 = false ∧ ¬ s.LooksLike (op.apply s).2) := by
  have hsound := hs.sound s n
  have hn := hs.lt s n
  have hidles := SceneOp.looksLike_of_idles s n hsound op
  have hoverlooks := SceneOp.not_looksLike_of_overlooks s n hsound op
  refine ⟨SceneOp.guarded_eq s n hsound (hs.counted s n) hn op,
    ⟨fun htruthful => ⟨fun hidle => ?_, fun hover => ?_⟩, fun hsees => ?_⟩,
    SceneOp.feed_apply_of_false s n hsound hn op, hidles,
    fun hover => ⟨(hoverlooks hover).1, (hoverlooks hover).2.1⟩⟩
  · rcases hidles hidle with ⟨htrue, hlooks⟩
    exact htruthful.changed.mp htrue hlooks
  · rcases hoverlooks hover with ⟨hfalse, hdiffers, _⟩
    exact Bool.false_ne_true (hfalse.symm.trans (htruthful.changed.mpr hdiffers))
  · exact SceneOp.truthful_of_not_idles s n hsound hn op hsees.1 hsees.2

/-- A root with two children. -/
def siblings : List Act :=
  let root := Handle.ofParts 0 1
  [.call (.createRoot "root" Tag.root), .call (.create root "first" Tag.item),
    .call (.create root "second" Tag.item)]

-- The first child can come to the top, where the second one is, and its seventh flag
-- has no name.
theorem truthful_iff_of_siblings :
    let s := after siblings {}
    s.Grown 3 ∧ s.handles = [.ofParts 0 1, .ofParts 1 1, .ofParts 2 1] ∧
      s.Truthful ((SceneOp.raise 1).apply s) ∧ ¬ s.Truthful ((SceneOp.raise 2).apply s) ∧
      ¬ s.Truthful ((SceneOp.setFlags 1 ⟨0x40⟩).apply s) := by
  have hgrown : (after siblings {}).Grown 3 := Grown.after siblings {} 0 .empty (by decide +kernel)
  have hfirst : SceneOp.pick (after siblings {}).handles 1 = some (.ofParts 1 1) := by
    decide +kernel
  refine ⟨hgrown, by decide +kernel, ?_, ?_, ?_⟩
  · refine (Grown.truthful_iff _ 3 hgrown (.raise 1)).2.1.mpr ⟨?_, id⟩
    rintro ⟨h, hp, hh⟩
    rw [hfirst, Option.mem_some_iff] at hp
    subst hp
    exact absurd hh (by decide +kernel)
  · refine fun htruthful => ((Grown.truthful_iff _ 3 hgrown (.raise 2)).2.1.mp htruthful).1 ?_
    exact ⟨.ofParts 2 1, by decide +kernel, by decide +kernel⟩
  · refine fun htruthful =>
      ((Grown.truthful_iff _ 3 hgrown (.setFlags 1 ⟨0x40⟩)).2.1.mp htruthful).2 ?_
    exact ⟨.ofParts 1 1, hfirst, .none, by decide +kernel, by decide, by decide⟩

/-- Not every answer is true: the root is raised in vain. -/
theorem not_truthful_raise_root : ¬ ∀ (s : Scene) (n : Nat), s.Grown n → ∀ op : SceneOp,
    op.guarded s = .ok (op.apply s) ∧ s.Truthful (op.apply s) := by
  intro hall
  have hgrown := Grown.after siblings {} 0 .empty (by decide +kernel)
  have hsame : (SceneOp.raise 0).apply (after siblings {}) = (true, after siblings {}) := by
    decide +kernel
  have htruthful := (hall _ _ hgrown (.raise 0)).2
  rw [hsame] at htruthful
  exact htruthful.changed.mp rfl (LooksLike.refl _)

end Scene

end TreeWatch
