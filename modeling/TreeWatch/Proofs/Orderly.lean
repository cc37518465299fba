import TreeWatch.Proofs.Census
import TreeWatch.Proofs.Convergence
import TreeWatch.Proofs.InPlace

/-!
# Orderly Scenes

What a caller may rely on who works on a scene with any handles, stale ones and
ones that were never handed out included. The live nodes are listed once each
and counted, parents and children agree, only the root has no parent, and a
snapshot shows the same tree with the children in handle order. An act that is
refused leaves everything as it was, the attributes, the slots and the feed
included. A destruction kills what lies under the node and nothing else.

The acts are the mutations in place, so a refusal has every chance to come too
late. The number of nodes created is taken from the answers. Generations have
32 bits, and a scene in which they wrapped around could hand out a handle of
a dead node again.

## Main definitions

* `Scene.Act`: A mutation, or taking the feed.
* `Scene.after`, `Scene.created`: The scene after several acts, and how many
  nodes they created.
* `Scene.Orderly`: What holds of the scene at any time.
* `Scene.Kills`: What a destruction does.

## Theorems

* `Scene.Sound.walk_handles`: The listing is a complete walk from the root.
* `Scene.Sound.orderly`: A scene whose live nodes are a tree is orderly.
* `Scene.Sound.kills`: A destruction answers the size of the subtree.
* `Scene.Grown.after`: Acts lead from one scene that was grown to another.
* `Scene.orderly_after`: All of this after any acts.
-/

namespace TreeWatch

open Forest (Under Walk)

namespace Scene

open InPlace (perform)

/-- What can be asked of a scene. -/
inductive Act where
  /-- A mutation, under whatever handles. -/
  | call (c : Call)
  /-- All that the feed holds. -/
  | take
deriving DecidableEq

namespace Act

/-- An act in place. -/
def inPlace : Act → InPlace Reply
  | call c => c.inPlace
  | take => .feed <$> modifyGet takeFeed

/-- The answer to an act. -/
def answer (a : Act) (s : Scene) : Except Refusal Reply := (perform a.inPlace s).1

/-- The scene that an act leaves behind. -/
def next (a : Act) (s : Scene) : Scene := (perform a.inPlace s).2

/-- How many nodes an act creates, which is none if it is refused. -/
def creates (a : Act) (s : Scene) : Nat :=
  match a.answer s with
  | .ok r => r.creates
  | .error _ => 0

end Act

/-- The scene after some acts, one after the other. -/
def after (acts : List Act) (s : Scene) : Scene := acts.foldl (fun s a => a.next s) s

/-- How many nodes some acts create together. -/
def created : List Act → Scene → Nat
  | [], _ => 0
  | a :: acts, s => a.creates s + created acts (a.next s)

/-- A scene keeps its books: what it lists, counts and links agrees, and its
    snapshot shows the same. -/
structure Orderly (s : Scene) : Prop where
  nodup_handles : s.handles.Nodup
  mem_handles : ∀ h, h ∈ s.handles ↔ s.contains h = true
  length_handles : s.handles.length = s.live
  mem_children : ∀ p c, c ∈ s.children p ↔ s.parent c = some p
  nodup_children : ∀ p, (s.children p).Nodup
  contains_root : ∀ r, s.root = some r → s.contains r = true
  parentless_iff : ∀ h, s.contains h = true → (s.parent h = none ↔ s.root = some h)
  snapshot_root : s.source.snapshot.root = s.root
  snapshot_contains : ∀ h, s.source.snapshot.contains h = s.contains h
  snapshot_parent : ∀ h, s.source.snapshot.parent h = s.parent h
  snapshot_perm : ∀ p, (s.source.snapshot.children p).Perm (s.children p)
  snapshot_ascending : ∀ p, Handle.Ascending (s.source.snapshot.children p)

/-- A node and all below it are dead, and the other nodes have the parents and
    the attributes they had. -/
structure Kills (s s' : Scene) (h : Handle) : Prop where
  contains : ∀ x, s'.contains x = true ↔ s.contains x = true ∧ ¬ Under s.parent x h
  parent : ∀ x, ¬ Under s.parent x h → s'.parent x = s.parent x
  describe : ∀ x, ¬ Under s.parent x h → s'.describe x = s.describe x

-- Taking a node out of a list of children changes no other attribute.
theorem Detaches.describe_eq (s : Scene) (h : Handle) (s₁ : Scene) (hs₁ : s.Detaches h s₁)
    (x : Handle) : s₁.describe x = s.describe x := by
  rcases hs₁ with ⟨p, _, rfl⟩ | ⟨_, rfl⟩
  · rw [describe, describe, unlist, node?_modify]
    split
    · rw [Option.map_map]
      rfl
    · rfl
  · rfl

section Sound

variable (s : Scene) (n : Nat) (hs : s.Sound n)

include hs

/-- The live nodes are listed as the complete walk from the root meets them. The
    number of slots bounds the walk, and no more nodes are live. -/
theorem Sound.walk_handles : Walk s.children s.root.toList s.handles ∧ s.handles.Nodup ∧
    ∀ h, h ∈ s.handles ↔ s.contains h = true := by
  rcases hs.tree.exists_walk s.root.toList with ⟨out, hw⟩
  have hmem : ∀ h, h ∈ out ↔ s.contains h = true := by
    intro h
    rw [Forest.mem_walk hs.tree _ out hw, hs.live]
    constructor
    · rintro ⟨r, hr, hu⟩
      exact Forest.held_of_above s.root s.parent h r hu (Or.inl (Option.mem_toList.mp hr))
    · intro hh
      rcases hs.tree.held_under_root h hh with ⟨r, hr, hu⟩
      exact ⟨r, Option.mem_toList.mpr hr, hu⟩
  have hapart : Forest.Apart s.parent s.root.toList := by
    cases s.root with
    | none => exact List.Pairwise.nil
    | some r => exact List.pairwise_singleton _ r
  have hnd := Forest.nodup_walk hs.tree _ out hw hapart
  have hlen := (List.subperm_of_subset hnd fun x hx => s.mem_places x ((hmem x).mp hx)).length_le
  rw [length_places] at hlen
  rw [handles, Forest.preorder_eq_of_walk _ out hw _ hlen]
  exact ⟨hw, hnd, hmem⟩

/-- A scene whose live nodes are a tree and are counted is orderly. -/
theorem Sound.orderly (hc : s.Counted) : s.Orderly := by
  rcases hs.walk_handles s n with ⟨_, hnd, hmem⟩
  rcases hs.snapshot_links s n with ⟨hroot, hparent⟩
  have hproper := s.source.proper_snapshot
  have hlen : s.handles.length = s.live := (hc.trans (Forest.ncard_eq_length _ _ hnd hmem)).symm
  refine ⟨hnd, hmem, hlen, hs.tree.mem_kids, hs.tree.nodup, fun r hr => (hs.live r).mpr (Or.inl hr),
    fun h hh => ⟨fun hp => ?_, hs.tree.root_up h⟩, hroot, hs.contains_snapshot s n, hparent,
    fun p => ?_, hproper.ascending⟩
  · rcases (hs.live h).mp hh with hr | ⟨p, hp'⟩
    · exact hr
    · rw [hp] at hp'
      exact absurd hp' (by simp only [reduceCtorEq, not_false_eq_true])
  · refine (List.perm_ext_iff_of_nodup (hproper.tree.nodup p) (hs.tree.nodup p)).mpr fun c => ?_
    rw [hproper.tree.mem_kids, hparent, hs.tree.mem_kids]

/-- A destruction kills the nodes under a live node and answers how many there
    were. -/
theorem Sound.kills (h : Handle) (k : Nat) (s' : Scene) (hok : s.destroy h = .ok (k, s')) :
    k = {x | Under s.parent x h}.ncard ∧ s.Kills s' h := by
  rcases hs.destroy_cases s n h k s' hok with ⟨hh, s₁, dying, hs₁, hnd, hmem, rfl, rfl⟩
  rcases hs.unlist_spec s n h hh s₁ hs₁ with ⟨_, _, _, _, _, hup, hlive, _, _, _⟩
  rcases releaseAll_spec dying (s₁.notify (.left h)) with ⟨hnode, _, _, _, _⟩
  have hkept : ∀ x, ¬ Under s.parent x h →
      (dying.foldl release (s₁.notify (.left h))).node? x = s₁.node? x := by
    intro x hx
    rw [hnode, if_neg (mt (hmem x).mp hx)]
    rfl
  refine ⟨(Forest.ncard_eq_length _ dying hnd hmem).symm, fun x => ?_, fun x hx => ?_,
    fun x hx => ?_⟩
  · by_cases hx : Under s.parent x h
    · rw [contains, hnode, if_pos ((hmem x).mpr hx)]
      simp only [Option.isSome_none, Bool.false_eq_true, hx, not_true_eq_false, and_false]
    · rw [contains, hkept x hx, ← contains, hlive]
      simp only [hx, not_false_eq_true, and_true]
  · rw [parent, hkept x hx, ← parent, hup]
  · rw [describe, hkept x hx, ← describe, hs₁.describe_eq s h s₁]

/-- The same in place. A live node can always be destroyed. -/
theorem Sound.act_destroy (h : Handle) (hh : s.contains h = true) :
    (Act.call (.destroy h)).answer s = .ok (.count {x | Under s.parent x h}.ncard) ∧
      s.Kills ((Act.call (.destroy h)).next s) h := by
  have hok : ∃ k s', s.destroy h = .ok (k, s') := by
    rcases (s.contains_iff h).mp hh with ⟨node, hn⟩
    unfold destroy
    rw [hn]
    exact ⟨_, _, rfl⟩
  rcases hok with ⟨k, s', hok⟩
  rcases hs.kills s n h k s' hok with ⟨hcount, hkills⟩
  have hperform : perform (Act.call (.destroy h)).inPlace s = (.ok (.count k), s') := by
    change perform (Reply.count <$> InPlace.destroy h) s = _
    rw [InPlace.perform_map, hs.destroy_inPlace, hok]
    rfl
  rw [Act.answer, Act.next, hperform, ← hcount]
  exact ⟨rfl, hkills⟩

/-- A refusal leaves everything as it was. -/
theorem Sound.next_of_error (a : Act) (e : Refusal) (he : a.answer s = .error e) :
    a.next s = s := by
  cases a with
  | take => exact absurd he (by simp only [Act.answer, Act.inPlace, InPlace.perform_map,
      InPlace.perform_modifyGet, Except.map, reduceCtorEq, not_false_eq_true])
  | call c =>
      rcases hs.call_inPlace s n c with ⟨r, s', hperform, _, _⟩ | ⟨e, hperform, _⟩
      · have hanswer : (Act.call c).answer s = .ok r := congrArg Prod.fst hperform
        rw [hanswer] at he
        exact absurd he (by simp only [reduceCtorEq, not_false_eq_true])
      · exact congrArg Prod.snd hperform

end Sound

/-- An act leads from one scene that was grown to another. -/
theorem Grown.act (a : Act) (s : Scene) (n : Nat) (hs : s.Grown n)
    (hn : n + a.creates s < 2 ^ 32) : (a.next s).Grown (n + a.creates s) := by
  cases a with
  | take => exact .taken s n hs
  | call c =>
      rcases (hs.sound s n).call_inPlace s n c with
        ⟨r, s', hperform, hrun, hcreates⟩ | ⟨e, hperform, _⟩
      · have hanswer : (Act.call c).answer s = .ok r := congrArg Prod.fst hperform
        have hnext : (Act.call c).next s = s' := congrArg Prod.snd hperform
        have hnew : (Act.call c).creates s = c.creates := by
          rw [Act.creates, hanswer]
          exact hcreates
        rw [hnew] at hn ⊢
        exact hnext ▸ .called s s' n c hs hrun hn
      · have hanswer : (Act.call c).answer s = .error e := congrArg Prod.fst hperform
        have hnext : (Act.call c).next s = s := congrArg Prod.snd hperform
        rw [Act.creates, hanswer, hnext]
        exact hs

/-- Acts lead from one scene that was grown to another, as long as they do not
    create too many nodes. -/
theorem Grown.after (acts : List Act) (s : Scene) (n : Nat) (hs : s.Grown n)
    (hn : n + created acts s < 2 ^ 32) : (after acts s).Grown (n + created acts s) := by
  induction acts generalizing s n with
  | nil => exact hs
  | cons a acts ih =>
      rw [created, ← Nat.add_assoc] at hn ⊢
      exact ih (a.next s) (n + a.creates s) (hs.act a s n (by omega)) hn

/-- Whatever was done to a scene that was empty at first, it is orderly. A
    refusal leaves it as it is, and a destruction answers the size of the
    subtree that it kills. -/
theorem orderly_after (acts : List Act) (hn : created acts {} < 2 ^ 32) :
    (after acts {}).Orderly ∧
      (∀ a e, Act.answer a (after acts {}) = .error e →
        Act.next a (after acts {}) = after acts {}) ∧
      ∀ h, (after acts {}).contains h = true →
        (Act.call (.destroy h)).answer (after acts {}) =
            .ok (.count {x | Under (after acts {}).parent x h}.ncard) ∧
          (after acts {}).Kills ((Act.call (.destroy h)).next (after acts {})) h := by
  have hgrown := Grown.after acts {} 0 .empty (by rwa [Nat.zero_add])
  have hsound := hgrown.sound _ _
  exact ⟨hsound.orderly _ _ (hgrown.counted _ _), fun a e => hsound.next_of_error _ _ a e,
    fun h hh => hsound.act_destroy _ _ h hh⟩

/-- Acts in which a slot is used again, and three of which are refused: under a
    handle of a dead node, for a second root, and as the node would come to lie
    below itself. -/
def reuse : List Act :=
  let root := Handle.ofParts 0 1
  let first := Handle.ofParts 1 1
  let second := Handle.ofParts 2 1
  let again := Handle.ofParts 1 2
  [.call (.createRoot "root" Tag.root), .call (.create root "first" Tag.item),
    .call (.create root "second" Tag.item), .call (.destroy first),
    .call (.create second "again" Tag.item), .call (.setLabel first "stale"),
    .call (.createRoot "root" Tag.root), .call (.reparent second again), .take,
    .call (.raise second)]

-- The answer to a destruction tells how many nodes lie under the second child.
theorem orderly_after_reuse :
    let s := after reuse {}
    let second := Handle.ofParts 2 1
    created reuse {} = 4 ∧ s.handles = [.ofParts 0 1, second, .ofParts 1 2] ∧ s.Orderly ∧
      {x | Under s.parent x second}.ncard = 2 ∧
      Act.next (.call (.create (.ofParts 1 1) "late" Tag.item)) s = s := by
  have hcreated : created reuse {} < 2 ^ 32 := by decide +kernel
  have hsecond : (after reuse {}).contains (.ofParts 2 1) = true := by decide +kernel
  have hcount : (Act.call (.destroy (.ofParts 2 1))).answer (after reuse {}) =
      .ok (.count 2) := by decide +kernel
  have hlate : Act.answer (.call (.create (.ofParts 1 1) "late" Tag.item)) (after reuse {}) =
      .error (.unknownNode (.ofParts 1 1)) := by decide +kernel
  rcases orderly_after reuse hcreated with ⟨horderly, hrefused, hkilled⟩
  have hanswer := (hkilled _ hsecond).1
  rw [hcount, Except.ok.injEq, Reply.count.injEq] at hanswer
  exact ⟨by decide +kernel, by decide +kernel, horderly, hanswer.symm, hrefused _ _ hlate⟩

end Scene

end TreeWatch
