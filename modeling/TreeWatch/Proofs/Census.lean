import TreeWatch.Proofs.Observed

/-!
# Counting Nodes

A scene keeps the number of its live nodes next to them, raised with each node
that is created and lowered with each one that dies. The number is right in
every scene that the mutations make, because a new node gets a handle that
names nothing yet and a slot is emptied only while its handle names a node.

The nodes created are counted on the other side by the feed, which tells once
of each of them. And the size of a record is the number of the nodes it
tracks, so a record that mirrors a scene is as large as the scene has live
nodes.

## Main definitions

* `Scene.Counted`: The number of live nodes is right.
* `Scene.arrivals`: How many nodes the feed tells have entered.
* `Scene.Tallies`: A mutation keeps both counts.

## Theorems

* `Scene.Call.tallies`: Every mutation does.
* `Store.Sound.size_eq`: The size of a record is the number of its nodes.
* `Scene.Sound.size_eq_live`: A record that mirrors a scene is as large as the
  scene has live nodes.
-/

namespace TreeWatch

/-- The task tells that a node entered. -/
def Task.isEntry : Task → Bool
  | .entered _ => true
  | _ => false

namespace Scene

/-- The scene knows how many of its nodes are live. -/
def Counted (s : Scene) : Prop := s.live = {h | s.contains h = true}.ncard

/-- How many nodes the feed tells have entered. -/
def arrivals (s : Scene) : Nat := s.feed.countP Task.isEntry

section Parts

variable (s : Scene) (h : Handle)

theorem live_modify (f : SceneNode → SceneNode) : (s.modify h f).live = s.live := by
  unfold modify
  split <;> rfl

theorem live_allocate (node : SceneNode) : (s.allocate node).2.live = s.live + 1 := by
  unfold allocate
  split <;> rfl

theorem feed_allocate (node : SceneNode) : (s.allocate node).2.feed = s.feed := by
  unfold allocate
  split <;> rfl

theorem contains_release (x : Handle) :
    (s.release h).contains x = true ↔ x ≠ h ∧ s.contains x = true := by
  rw [contains, node?_release]
  by_cases hx : h = x
  · simp only [hx, if_true, Option.isSome_none, Bool.false_eq_true, ne_eq, not_true_eq_false,
      false_and]
  · simp only [hx, if_false, ne_eq, Ne.symm hx, not_false_eq_true, true_and, contains]

theorem arrivals_notify (t : Task) :
    (s.notify t).arrivals = s.arrivals + if t.isEntry then 1 else 0 := by
  rw [arrivals, notify, List.countP_append, List.countP_singleton, arrivals]

end Parts

theorem counted_empty : ({} : Scene).Counted := by
  have hset : {h | ({} : Scene).contains h = true} = ∅ := by
    ext x
    exact ⟨fun hx => absurd hx Bool.false_ne_true, fun hx => hx.elim⟩
  rw [Counted, hset, Set.ncard_empty]

namespace Counted

variable (s s' : Scene)

theorem congr (hc : s.Counted) (hlive : s'.live = s.live)
    (hcontains : ∀ x, s'.contains x = s.contains x) : s'.Counted := by
  simp only [Counted, hlive, hcontains]
  exact hc

theorem modify (hc : s.Counted) (h : Handle) (f : SceneNode → SceneNode) :
    (s.modify h f).Counted :=
  hc.congr s _ (s.live_modify h f) fun x => s.contains_modify h f x

/-- A new node is one more. -/
theorem allocate (hc : s.Counted) (n : Nat) (hs : s.Stored n) (hn : n + 1 < 2 ^ 32)
    (node : SceneNode) : (s.allocate node).2.Counted := by
  rcases hs.allocate_spec s n hn node with ⟨h, s₁, halloc, _, hfresh, _, hnode, _, _⟩
  have hnew : h ∉ {x | s.contains x = true} := fun hh => hfresh (s.issued_of_contains h hh)
  have hset : {x | s₁.contains x = true} = insert h {x | s.contains x = true} := by
    ext x
    exact (s.views_insert s₁ h node hnode).2.2 x
  have hlive := s.live_allocate node
  rw [halloc] at hlive ⊢
  rw [Counted, hlive, hset, Set.ncard_insert_of_notMem hnew, hc]

/-- A node that dies is one less. -/
theorem release (hc : s.Counted) (h : Handle) : (s.release h).Counted := by
  by_cases hh : s.contains h = true
  · have hset : {x | (s.release h).contains x = true} = {x | s.contains x = true} \ {h} := by
      ext x
      rw [Set.mem_ofPred_eq, contains_release]
      exact and_comm
    have hlive : (s.release h).live = s.live - 1 := by
      simp only [Scene.release, hh, if_true]
    have hmem : h ∈ {x | s.contains x = true} := hh
    rw [Counted, hlive, hset, hc, Set.ncard_sdiff_singleton_of_mem hmem]
  · have hself : s.release h = s := by
      rw [Scene.release, if_neg hh]
    rw [hself]
    exact hc

theorem releaseAll (dying : List Handle) (hc : s.Counted) :
    (dying.foldl Scene.release s).Counted := by
  induction dying generalizing s with
  | nil => exact hc
  | cons h dying ih => exact ih (s.release h) (hc.release s h)

end Counted

/-- A mutation that creates so many nodes tells of just as many, and it keeps
    the count of live nodes right as long as generations do not wrap around. -/
structure Tallies (s s' : Scene) (created : Nat) : Prop where
  arrivals : s'.arrivals = s.arrivals + created
  counted : ∀ n, s.Stored n → n + created < 2 ^ 32 → s.Counted → s'.Counted

namespace Tallies

variable (s s₁ s' : Scene) (k : Nat)

theorem refl : Tallies s s 0 := ⟨rfl, fun _ _ _ hc => hc⟩

/-- Changing a node creates none. -/
theorem modify (h : Tallies s s₁ k) (x : Handle) (f : SceneNode → SceneNode) :
    Tallies s (s₁.modify x f) k := by
  refine ⟨?_, fun n hs hn hc => (h.counted n hs hn hc).modify s₁ x f⟩
  rw [Scene.arrivals, feed_modify, ← Scene.arrivals, h.arrivals]

/-- Telling of something else than an entering node is not counted. -/
theorem notify (h : Tallies s s₁ k) (t : Task) (ht : t.isEntry = false) :
    Tallies s (s₁.notify t) k := by
  refine ⟨?_, fun n hs hn hc => (h.counted n hs hn hc).congr s₁ _ rfl fun _ => rfl⟩
  rw [arrivals_notify, ht, if_neg Bool.false_ne_true, Nat.add_zero, h.arrivals]

/-- A new node is told of. -/
theorem allocate (node : SceneNode) (h : Handle) (hlive : s₁.live = (s.allocate node).2.live)
    (hcontains : ∀ x, s₁.contains x = (s.allocate node).2.contains x)
    (hfeed : s₁.feed = (s.allocate node).2.feed) : Tallies s (s₁.notify (.entered h)) 1 := by
  refine ⟨?_, fun n hs hn hc => ?_⟩
  · rw [arrivals_notify, Scene.arrivals, hfeed, feed_allocate]
    rfl
  · exact (hc.allocate s n hs hn node).congr _ _ hlive hcontains

theorem releaseAll (h : Tallies s s₁ k) (dying : List Handle) :
    Tallies s (dying.foldl release s₁) k := by
  refine ⟨?_, fun n hs hn hc => (h.counted n hs hn hc).releaseAll s₁ dying⟩
  rw [Scene.arrivals, (releaseAll_spec dying s₁).2.2.1, ← Scene.arrivals, h.arrivals]

theorem createRoot (label : String) (tag : Tag) (h : Handle)
    (hok : s.createRoot label tag = .ok (h, s')) : Tallies s s' 1 := by
  unfold Scene.createRoot at hok
  by_cases hr : s.root.isSome = true
  · rw [if_pos hr] at hok
    exact absurd hok (by simp only [reduceCtorEq, not_false_eq_true])
  · rw [if_neg hr, Except.ok.injEq, Prod.mk.injEq] at hok
    rw [← hok.2]
    exact allocate s _ _ _ rfl (fun _ => rfl) rfl

theorem create (p : Handle) (label : String) (tag : Tag) (h : Handle)
    (hok : s.create p label tag = .ok (h, s')) : Tallies s s' 1 := by
  unfold Scene.create at hok
  by_cases hp : (!s.contains p) = true
  · rw [if_pos hp] at hok
    exact absurd hok (by simp only [reduceCtorEq, not_false_eq_true])
  · rw [if_neg hp, Except.ok.injEq, Prod.mk.injEq] at hok
    rw [← hok.2]
    exact allocate s _ _ _ (live_modify _ _ _) (contains_modify _ _ _) (feed_modify _ _ _)

theorem destroy (h : Handle) (count : Nat) (hok : s.destroy h = .ok (count, s')) :
    Tallies s s' 0 := by
  unfold Scene.destroy at hok
  cases hn : s.node? h with
  | none => simp only [hn, reduceCtorEq] at hok
  | some node =>
      simp only [hn, Except.ok.injEq, Prod.mk.injEq] at hok
      rw [← hok.2]
      refine releaseAll s _ 0 (notify s _ 0 ?_ (.left h) rfl) _
      cases node.parent with
      | none => exact ⟨rfl, fun _ _ _ hc => hc.congr s _ rfl fun _ => rfl⟩
      | some p => exact modify s s 0 (refl s) p _

theorem reparent (h p : Handle) (hok : s.reparent h p = .ok s') : Tallies s s' 0 := by
  unfold Scene.reparent at hok
  cases hn : s.node? h with
  | none => simp only [hn, reduceCtorEq] at hok
  | some node =>
      cases hq : node.parent with
      | none => simp only [hn, hq, reduceCtorEq] at hok
      | some q =>
          simp only [hn, hq] at hok
          split at hok
          · exact absurd hok (by simp only [reduceCtorEq, not_false_eq_true])
          · split at hok
            · exact absurd hok (by simp only [reduceCtorEq, not_false_eq_true])
            · rw [Except.ok.injEq] at hok
              rw [← hok]
              refine notify s _ 0 (modify s _ 0 (modify s _ 0 ?_ _ _) _ _) (.reparented h) rfl
              exact modify s s 0 (refl s) q _

theorem raise (h : Handle) (hok : s.raise h = .ok s') : Tallies s s' 0 := by
  unfold Scene.raise at hok
  cases hn : s.node? h with
  | none => simp only [hn, reduceCtorEq] at hok
  | some node =>
      cases hp : node.parent with
      | none =>
          simp only [hn, hp, Except.ok.injEq] at hok
          exact hok ▸ refl s
      | some p =>
          simp only [hn, hp, Except.ok.injEq] at hok
          exact hok ▸ modify s s 0 (refl s) p _

theorem setLabel (h : Handle) (label : String) (hok : s.setLabel h label = .ok s') :
    Tallies s s' 0 := by
  unfold Scene.setLabel at hok
  by_cases hh : s.contains h = true
  · rw [if_pos hh, Except.ok.injEq] at hok
    exact hok ▸ notify s _ 0 (modify s s 0 (refl s) h _) (.attributes h Attributes.label) rfl
  · rw [if_neg hh] at hok
    exact absurd hok (by simp only [reduceCtorEq, not_false_eq_true])

theorem setFlags (h : Handle) (flags : StateFlags) (kinds : Attributes)
    (hok : s.setFlags h flags = .ok (kinds, s')) : Tallies s s' 0 := by
  unfold Scene.setFlags at hok
  cases hn : s.node? h with
  | none => simp only [hn, reduceCtorEq] at hok
  | some node =>
      simp only [hn, Except.ok.injEq, Prod.mk.injEq] at hok
      have hset := modify s s 0 (refl s) h fun n => { n with flags := flags }
      rw [← hok.2]
      split
      · exact hset
      · exact notify s _ 0 hset (.attributes h _) rfl

end Tallies

/-- Every mutation that is not refused keeps the books. -/
theorem Call.tallies (c : Call) (s s' : Scene) (hok : c.run s = .ok s') :
    Tallies s s' c.creates := by
  cases c with
  | createRoot label tag =>
      rcases exists_of_map_snd _ s' hok with ⟨h, hh⟩
      exact .createRoot s s' label tag h hh
  | create p label tag =>
      rcases exists_of_map_snd _ s' hok with ⟨h, hh⟩
      exact .create s s' p label tag h hh
  | destroy h =>
      rcases exists_of_map_snd _ s' hok with ⟨k, hk⟩
      exact .destroy s s' h k hk
  | reparent h p => exact .reparent s s' h p hok
  | raise h => exact .raise s s' h hok
  | setLabel h label => exact .setLabel s s' h label hok
  | setFlags h flags =>
      rcases exists_of_map_snd _ s' hok with ⟨kinds, hk⟩
      exact .setFlags s s' h flags kinds hk

end Scene

namespace Store

-- A record lists each of its nodes once.
theorem Sound.nodup_nodeList (s : Store) (hs : s.Sound) : s.nodeList.Nodup := by
  rw [nodeList, List.nodup_append']
  refine ⟨?_, Std.ExtTreeMap.nodup_keys, fun x hx hk => ?_⟩
  · cases s.root with
    | none => exact List.nodup_nil
    | some r => exact List.nodup_singleton r
  · rw [Option.mem_toList] at hx
    rw [Std.ExtTreeMap.mem_keys, Std.ExtTreeMap.mem_iff_contains, HandleMap.contains_iff] at hk
    rcases hk with ⟨p, hp⟩
    exact hs.tree.root_ne x p hp hx

/-- The size of a record is the number of its nodes. -/
theorem Sound.size_eq (s : Store) (hs : s.Sound) : s.size = {h | s.contains h = true}.ncard := by
  rw [← length_nodeList]
  exact (Forest.ncard_eq_length _ _ (hs.nodup_nodeList s) fun x => s.mem_nodeList x).symm

end Store

/-- A record that mirrors a scene is as large as the scene has live nodes. -/
theorem Scene.Sound.size_eq_live (s : Scene) (n : Nat) (hs : s.Sound n) (hc : s.Counted)
    (t : Store) (ht : t.Sound) (hm : s.Mirrored t) : t.size = s.live := by
  have hsame : ∀ x, t.contains x = true ↔ s.contains x = true := by
    intro x
    rw [t.contains_iff_held, hs.live, Forest.Held, Forest.Held, hm.root, hm.up]
  rw [ht.size_eq, hc]
  simp only [hsame]

end TreeWatch
