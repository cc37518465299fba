import Mathlib.Data.Nat.Bitwise
import TreeWatch.Scene.Basic
import TreeWatch.Proofs.Order

/-!
# Slots and Generations

A scene finds a node by the slot in its handle and accepts it only under the
generation in its handle. Two handles with both parts equal are equal, so what
a write to one slot does can be said about handles: it changes what one handle
names and nothing else, since another handle into that slot is out of date.

A handle that was handed out once is never handed out again. A slot that is
used again gets the next generation, and a new slot has an index that no handle
had before. Both parts have 32 bits, so this holds as long as fewer than
`2 ^ 32` nodes were created: no slot has an index or a generation larger than
the number of creations so far.

## Main definitions

* `Scene.Issued`: A handle that may have been handed out.
* `Scene.Stored`: Free slots are empty, and numbers are within bounds.

## Theorems

* `Handle.eq_of_parts`: A handle is determined by its parts.
* `Scene.node?_modify`, `Scene.node?_release`: What a write to a slot changes.
* `Scene.fresh_write`: A write that makes a handle nobody had before.
* `Scene.Stored.allocate_write`: Where a new node goes.
* `Scene.Stored.allocate_spec`: A new node gets a handle that was never handed out.
-/

namespace TreeWatch

namespace Handle

theorem toNat_slot (h : Handle) : h.slot.toNat = h.raw.toNat / 2 ^ 32 := by
  have hlt := h.raw.toNat_lt
  rw [slot, UInt64.toNat_toUInt32, UInt64.toNat_shiftRight, Nat.shiftRight_eq_div_pow]
  exact Nat.mod_eq_of_lt (by change h.raw.toNat / 2 ^ 32 < 2 ^ 32; omega)

theorem toNat_generation (h : Handle) : h.generation.toNat = h.raw.toNat % 2 ^ 32 :=
  h.raw.toNat_toUInt32

-- The two halves give back the raw value.
theorem eq_of_parts (a b : Handle) (hslot : a.slot = b.slot)
    (hgeneration : a.generation = b.generation) : a = b := by
  refine raw_toNat_injective ?_
  have hhigh := congrArg UInt32.toNat hslot
  have hlow := congrArg UInt32.toNat hgeneration
  rw [toNat_slot, toNat_slot] at hhigh
  rw [toNat_generation, toNat_generation] at hlow
  dsimp only
  omega

theorem toNat_ofParts (i g : UInt32) : (ofParts i g).raw.toNat = i.toNat * 2 ^ 32 + g.toNat := by
  have hi := i.toNat_lt
  have hg := g.toNat_lt
  have hshift : i.toNat <<< 32 = i.toNat * 2 ^ 32 := Nat.shiftLeft_eq i.toNat 32
  have hfits : i.toNat * 2 ^ 32 % 2 ^ 64 = i.toNat * 2 ^ 32 := Nat.mod_eq_of_lt (by omega)
  rw [ofParts, UInt64.toNat_or, UInt64.toNat_shiftLeft, UInt32.toNat_toUInt64,
    UInt32.toNat_toUInt64]
  change i.toNat <<< 32 % 2 ^ 64 ||| g.toNat = _
  rw [hshift, hfits, ← hshift, ← Nat.shiftLeft_add_eq_or_of_lt hg]

theorem slot_ofParts (i g : UInt32) : (ofParts i g).slot = i := by
  have hg := g.toNat_lt
  rw [← UInt32.toNat_inj, toNat_slot, toNat_ofParts]
  omega

theorem generation_ofParts (i g : UInt32) : (ofParts i g).generation = g := by
  have hg := g.toNat_lt
  rw [← UInt32.toNat_inj, toNat_generation, toNat_ofParts]
  omega

end Handle

namespace Scene

/-- A handle names what its slot holds, if the slot has its generation. -/
theorem node?_eq_some_iff (s : Scene) (h : Handle) (n : SceneNode) :
    s.node? h = some n ↔ s.slots[h.slot.toNat]? = some ⟨h.generation, some n⟩ := by
  unfold node?
  cases hget : s.slots[h.slot.toNat]? with
  | none => simp only [reduceCtorEq]
  | some slot =>
      rcases slot with ⟨generation, node⟩
      by_cases hg : generation = h.generation
      · simp only [hg, if_true, Option.some.injEq, Slot.mk.injEq, true_and]
      · simp only [hg, if_false, reduceCtorEq, Option.some.injEq, Slot.mk.injEq, false_and]

theorem contains_iff (s : Scene) (h : Handle) :
    s.contains h = true ↔ ∃ n, s.node? h = some n :=
  Option.isSome_iff_exists

/-- A handle whose slot exists and has reached its generation. A handle that
    was ever handed out is of this kind. -/
def Issued (s : Scene) (h : Handle) : Prop :=
  ∃ slot, s.slots[h.slot.toNat]? = some slot ∧ h.generation.toNat ≤ slot.generation.toNat

theorem issued_of_contains (s : Scene) (h : Handle) (hh : s.contains h = true) : s.Issued h := by
  rcases (s.contains_iff h).mp hh with ⟨n, hn⟩
  exact ⟨_, (s.node?_eq_some_iff h n).mp hn, Nat.le_refl _⟩

/-- Free slots exist, are empty and are listed once. No slot has an index or a
    generation above `n`. -/
structure Stored (s : Scene) (n : Nat) : Prop where
  vacant : ∀ i ∈ s.free, ∃ slot, s.slots[i.toNat]? = some slot ∧ slot.node = none
  nodup : s.free.Nodup
  few : s.slots.size ≤ n
  young : ∀ (i : Nat) (slot : Slot), s.slots[i]? = some slot → slot.generation.toNat ≤ n

-- Of the handles into one slot only one names a node.
theorem node?_of_same_slot (s : Scene) (h x : Handle) (n : SceneNode) (hn : s.node? h = some n)
    (hslot : x.slot = h.slot) (hne : x ≠ h) : s.node? x = none := by
  have hget := (s.node?_eq_some_iff h n).mp hn
  rw [node?, hslot, hget]
  have hg : ¬ h.generation = x.generation := fun hg => hne (Handle.eq_of_parts x h hslot hg.symm)
  simp only [hg, if_false]

-- The root, the feed and the number of live nodes are kept next to the slots.
theorem Stored.of_slots (s s' : Scene) (n : Nat) (hs : s.Stored n) (hslots : s'.slots = s.slots)
    (hfree : s'.free = s.free) : s'.Stored n := by
  refine ⟨?_, ?_, ?_, ?_⟩
  · rw [hslots, hfree]
    exact hs.vacant
  · exact hfree ▸ hs.nodup
  · exact hslots ▸ hs.few
  · exact hslots ▸ hs.young

section Write

-- A write to slot `i`, which holds `new` afterwards.
variable (s s' : Scene) (i : Nat) (new : Slot)
  (hget : ∀ j, s'.slots[j]? = if i = j then some new else s.slots[j]?)

-- Writing to a slot that exists, or behind the last one, is such a write.
theorem slots_set (slots : Array Slot) (i : Nat) (old new : Slot) (hold : slots[i]? = some old)
    (j : Nat) : (slots.setIfInBounds i new)[j]? = if i = j then some new else slots[j]? := by
  rw [Array.getElem?_setIfInBounds, if_pos (Array.getElem?_eq_some_iff.mp hold).1]

theorem slots_push (slots : Array Slot) (new : Slot) (j : Nat) :
    (slots.push new)[j]? = if slots.size = j then some new else slots[j]? := by
  simp only [Array.getElem?_push, eq_comm]

include hget

-- Generations only grow, so the handles that were handed out stay.
theorem issued_write
    (hle : ∀ old, s.slots[i]? = some old → old.generation.toNat ≤ new.generation.toNat)
    (x : Handle) (hx : s.Issued x) : s'.Issued x := by
  rcases hx with ⟨slot, hslot, hxle⟩
  by_cases hidx : i = x.slot.toNat
  · exact ⟨new, by rw [hget, if_pos hidx], hxle.trans (hle slot (hidx ▸ hslot))⟩
  · exact ⟨slot, by rw [hget, if_neg hidx, hslot], hxle⟩

/-- A write under a generation within bounds keeps the bounds. The free slots
    that were not written to are still empty. -/
theorem Stored.write (n : Nat) (hs : s.Stored n) (hn : new.generation.toNat ≤ n)
    (hsize : s'.slots.size ≤ n) (hnd : s'.free.Nodup)
    (hfree : ∀ j ∈ s'.free, (i = j.toNat ∧ new.node = none) ∨ (i ≠ j.toNat ∧ j ∈ s.free)) :
    s'.Stored n := by
  refine ⟨fun j hj => ?_, hnd, hsize, fun j slot hslot => ?_⟩
  · rcases hfree j hj with ⟨hidx, hnone⟩ | ⟨hidx, hj⟩
    · exact ⟨new, by rw [hget, if_pos hidx], hnone⟩
    · rcases hs.vacant j hj with ⟨slot, hslot, hnone⟩
      exact ⟨slot, by rw [hget, if_neg hidx, hslot], hnone⟩
  · rw [hget] at hslot
    by_cases hidx : i = j
    · rw [if_pos hidx, Option.some.injEq] at hslot
      exact hslot ▸ hn
    · rw [if_neg hidx] at hslot
      exact hs.young j slot hslot

/-- A write under the generation of a handle changes what that handle names.
    Another handle into the slot has to be out of date before. -/
theorem node?_write (h : Handle) (hi : i = h.slot.toNat) (hg : new.generation = h.generation)
    (hdated : ∀ x, x.slot = h.slot → x ≠ h → s.node? x = none) (x : Handle) :
    s'.node? x = if h = x then new.node else s.node? x := by
  have hslot := hget x.slot.toNat
  by_cases hx : h.slot = x.slot
  · rw [hi, hx, if_pos rfl] at hslot
    by_cases hgx : h.generation = x.generation
    · rw [if_pos (Handle.eq_of_parts h x hx hgx), node?, hslot]
      simp only [hg, hgx, if_true]
    · have hne : h ≠ x := fun he => hgx (he ▸ rfl)
      rw [if_neg hne, hdated x hx.symm (Ne.symm hne), node?, hslot]
      simp only [hg, hgx, if_false]
  · have hne : h ≠ x := fun he => hx (he ▸ rfl)
    have hidx : i ≠ x.slot.toNat := fun he => hx (UInt32.toNat_inj.mp (hi ▸ he))
    rw [if_neg hidx] at hslot
    rw [if_neg hne, node?, node?, hslot]

/-- A write to a new slot, or to an empty one under a later generation, names the
    node by a handle that was never handed out. -/
theorem fresh_write (h : Handle) (hi : i = h.slot.toNat) (hg : new.generation = h.generation)
    (hold : ∀ old, s.slots[i]? = some old →
      old.generation.toNat < h.generation.toNat ∧ old.node = none) :
    ¬ s.Issued h ∧ (∀ x, s.Issued x → s'.Issued x) ∧
      ∀ x, s'.node? x = if h = x then new.node else s.node? x := by
  refine ⟨?_, ?_, ?_⟩
  · rintro ⟨slot, hslot, hle⟩
    exact absurd hle (Nat.not_le_of_lt (hold slot (hi ▸ hslot)).1)
  · refine s.issued_write s' i new hget fun old hslot => ?_
    rw [hg]
    exact (hold old hslot).1.le
  · refine s.node?_write s' i new hget h hi hg fun x hslot _ => ?_
    rw [node?, hslot, ← hi]
    cases hs : s.slots[i]? with
    | none => rfl
    | some old => simp only [(hold old hs).2, ite_self]

end Write

section Modify

variable (s : Scene) (h : Handle) (f : SceneNode → SceneNode)

theorem root_modify : (s.modify h f).root = s.root := by
  unfold modify
  split <;> rfl

theorem feed_modify : (s.modify h f).feed = s.feed := by
  unfold modify
  split <;> rfl

theorem size_modify : (s.modify h f).slots.size = s.slots.size := by
  unfold modify
  split
  · rfl
  · exact Array.size_setIfInBounds

/-- Changing a node changes what its own handle names. -/
theorem node?_modify (x : Handle) :
    (s.modify h f).node? x = if h = x then (s.node? x).map f else s.node? x := by
  unfold modify
  cases hn : s.node? h with
  | none =>
      by_cases hx : h = x
      · subst hx
        rw [if_pos rfl, hn]
        rfl
      · rw [if_neg hx]
  | some n =>
      have hget := slots_set s.slots _ _ ⟨h.generation, some (f n)⟩
        ((s.node?_eq_some_iff h n).mp hn)
      dsimp only
      rw [s.node?_write _ _ _ hget h rfl rfl
        (fun x hslot hne => s.node?_of_same_slot h x n hn hslot hne) x]
      by_cases hx : h = x
      · subst hx
        rw [if_pos rfl, if_pos rfl, hn, Option.map_some]
      · rw [if_neg hx, if_neg hx]

theorem issued_modify (x : Handle) (hx : s.Issued x) : (s.modify h f).Issued x := by
  unfold modify
  cases hn : s.node? h with
  | none => exact hx
  | some n =>
      have hold := (s.node?_eq_some_iff h n).mp hn
      have hget := slots_set s.slots _ _ ⟨h.generation, some (f n)⟩ hold
      refine s.issued_write _ _ _ hget (fun old hslot => ?_) x hx
      rw [hold, Option.some.injEq] at hslot
      exact hslot ▸ Nat.le_refl _

-- The slot of a live node is not free.
theorem slot_not_free (n : Nat) (hs : s.Stored n) (hh : s.contains h = true) (j : UInt32)
    (hj : j ∈ s.free) : h.slot.toNat ≠ j.toNat := by
  intro he
  rcases (s.contains_iff h).mp hh with ⟨node, hnode⟩
  rcases hs.vacant j hj with ⟨slot, hslot, hnone⟩
  rw [← he, (s.node?_eq_some_iff h node).mp hnode, Option.some.injEq] at hslot
  rw [← hslot] at hnone
  exact absurd hnone (by simp only [reduceCtorEq, not_false_eq_true])

theorem Stored.modify (n : Nat) (hs : s.Stored n) : (s.modify h f).Stored n := by
  unfold Scene.modify
  cases hn : s.node? h with
  | none => exact hs
  | some node =>
      have hold := (s.node?_eq_some_iff h node).mp hn
      have hget := slots_set s.slots _ _ ⟨h.generation, some (f node)⟩ hold
      have hyoung := hs.young _ _ hold
      refine Stored.write s _ _ ⟨h.generation, some (f node)⟩ hget n hs hyoung ?_ hs.nodup
        fun j hj => ?_
      · exact Array.size_setIfInBounds.trans_le hs.few
      · exact Or.inr ⟨s.slot_not_free h n hs ((s.contains_iff h).mpr ⟨node, hn⟩) j hj, hj⟩

end Modify

section Release

variable (s : Scene) (h : Handle)

theorem root_release : (s.release h).root = s.root := by
  unfold release
  split <;> rfl

theorem feed_release : (s.release h).feed = s.feed := by
  unfold release
  split <;> rfl

/-- Emptying the slot of a node changes what its own handle names. -/
theorem node?_release (x : Handle) :
    (s.release h).node? x = if h = x then none else s.node? x := by
  unfold release
  by_cases hh : s.contains h = true
  · rcases (s.contains_iff h).mp hh with ⟨n, hn⟩
    have hget := slots_set s.slots _ _ ⟨h.generation, none⟩ ((s.node?_eq_some_iff h n).mp hn)
    rw [if_pos hh, s.node?_write _ _ _ hget h rfl rfl
      (fun x hslot hne => s.node?_of_same_slot h x n hn hslot hne) x]
  · rw [if_neg hh]
    by_cases hx : h = x
    · rw [if_pos hx, ← hx]
      rw [contains, Option.isSome_iff_ne_none, not_not] at hh
      exact hh
    · rw [if_neg hx]

theorem issued_release (x : Handle) (hx : s.Issued x) : (s.release h).Issued x := by
  unfold release
  by_cases hh : s.contains h = true
  · rcases (s.contains_iff h).mp hh with ⟨n, hn⟩
    have hold := (s.node?_eq_some_iff h n).mp hn
    have hget := slots_set s.slots _ _ ⟨h.generation, none⟩ hold
    rw [if_pos hh]
    refine s.issued_write _ _ _ hget (fun old hslot => ?_) x hx
    rw [hold, Option.some.injEq] at hslot
    exact hslot ▸ Nat.le_refl _
  · rw [if_neg hh]
    exact hx

theorem Stored.release (n : Nat) (hs : s.Stored n) : (s.release h).Stored n := by
  unfold Scene.release
  by_cases hh : s.contains h = true
  · rcases (s.contains_iff h).mp hh with ⟨node, hn⟩
    have hold := (s.node?_eq_some_iff h node).mp hn
    have hget := slots_set s.slots _ _ ⟨h.generation, none⟩ hold
    have hout := s.slot_not_free h n hs hh
    rw [if_pos hh]
    have hyoung := hs.young _ _ hold
    refine Stored.write s _ _ ⟨h.generation, none⟩ hget n hs hyoung ?_ ?_ fun j hj => ?_
    · exact Array.size_setIfInBounds.trans_le hs.few
    · exact List.nodup_cons.mpr ⟨fun hm => hout h.slot hm rfl, hs.nodup⟩
    · rcases List.mem_cons.mp hj with rfl | hj
      · exact Or.inl ⟨rfl, rfl⟩
      · exact Or.inr ⟨hout j hj, hj⟩
  · rw [if_neg hh]
    exact hs

end Release

/-- A new node is written to a new slot, under the first generation, or to an empty
    one under the next generation, which is smaller only if it has wrapped
    around. -/
theorem Stored.allocate_write (s : Scene) (n : Nat) (hs : s.Stored n) (hn : n < 2 ^ 32)
    (node : SceneNode) :
    ∃ h s', s.allocate node = (h, s') ∧ s'.Stored (n + 1) ∧
      (∀ j, s'.slots[j]? =
        if h.slot.toNat = j then some ⟨h.generation, some node⟩ else s.slots[j]?) ∧
      ((h.slot.toNat = s.slots.size ∧ h.generation = 1 ∧ s'.slots.size = s.slots.size + 1) ∨
        ∃ old, s.slots[h.slot.toNat]? = some old ∧ old.node = none ∧
          h.generation = old.generation + 1 ∧ s'.slots.size = s.slots.size) ∧
      s'.root = s.root ∧ s'.feed = s.feed := by
  have hs' : s.Stored (n + 1) := ⟨hs.vacant, hs.nodup, hs.few.trans (Nat.le_succ n),
    fun i slot hslot => (hs.young i slot hslot).trans (Nat.le_succ n)⟩
  have hfew := hs.few
  unfold allocate
  cases hfree : s.free with
  | nil =>
      -- No slot is free: the new one lies behind all others.
      have hidx : s.slots.size.toUInt32.toNat = s.slots.size :=
        UInt32.toNat_ofNat_of_lt' (by change s.slots.size < 2 ^ 32; omega)
      have hget := slots_push s.slots ⟨1, some node⟩
      have hsize : (s.slots.push ⟨1, some node⟩).size = s.slots.size + 1 := Array.size_push _
      refine ⟨_, _, rfl, ?_, ?_, Or.inl ⟨?_, Handle.generation_ofParts _ 1, hsize⟩, rfl, rfl⟩
      · refine Stored.write s _ _ _ hget (n + 1) hs' ?_ ?_ (hfree ▸ hs.nodup) fun j hj => ?_
        · exact Nat.succ_le_succ (Nat.zero_le n)
        · dsimp only
          omega
        · exact absurd hj List.not_mem_nil
      · rw [Handle.slot_ofParts, Handle.generation_ofParts, hidx]
        exact hget
      · rw [Handle.slot_ofParts, hidx]
  | cons i free =>
      -- A slot is used again under its next generation.
      rcases hs.vacant i (hfree ▸ List.mem_cons_self) with ⟨⟨g, _⟩, hold, rfl⟩
      have hyoung := hs.young _ _ hold
      dsimp only at hyoung
      have hnext : (g + 1).toNat ≤ g.toNat + 1 := by
        rw [UInt32.toNat_add]
        exact Nat.mod_le _ _
      have hnd := hs.nodup
      rw [hfree, List.nodup_cons] at hnd
      have hget := slots_set s.slots _ _ ⟨g + 1, some node⟩ hold
      have hsize : (s.slots.setIfInBounds i.toNat ⟨g + 1, some node⟩).size = s.slots.size :=
        Array.size_setIfInBounds
      simp only [hold]
      refine ⟨_, _, rfl, ?_, ?_, Or.inr ⟨⟨g, none⟩, ?_, rfl, ?_, hsize⟩, rfl, rfl⟩
      · refine Stored.write s _ _ _ hget (n + 1) hs' ?_ (hsize.trans_le hs'.few) hnd.2
          fun j hj => Or.inr ⟨?_, ?_⟩
        · dsimp only
          omega
        · exact fun he => hnd.1 (UInt32.toNat_inj.mp he ▸ hj)
        · exact hfree ▸ List.mem_cons_of_mem i hj
      · rw [Handle.slot_ofParts, Handle.generation_ofParts]
        exact hget
      · rw [Handle.slot_ofParts, hold]
      · rw [Handle.generation_ofParts]

/-- A new node gets a handle that was never handed out, as long as fewer than
    `2 ^ 32` nodes were created. -/
theorem Stored.allocate_spec (s : Scene) (n : Nat) (hs : s.Stored n) (hn : n + 1 < 2 ^ 32)
    (node : SceneNode) :
    ∃ h s', s.allocate node = (h, s') ∧ s'.Stored (n + 1) ∧ ¬ s.Issued h ∧
      (∀ x, s.Issued x → s'.Issued x) ∧
      (∀ x, s'.node? x = if h = x then some node else s.node? x) ∧ s'.root = s.root ∧
      s'.feed = s.feed := by
  rcases hs.allocate_write s n (Nat.lt_of_succ_lt hn) node with
    ⟨h, s', hrun, hstored, hget, hwhere, hroot, hfeed⟩
  have hold : ∀ old, s.slots[h.slot.toNat]? = some old →
      old.generation.toNat < h.generation.toNat ∧ old.node = none := by
    intro old hold
    rcases hwhere with ⟨hidx, _, _⟩ | ⟨old', hold', hnone, hnext, _⟩
    · rw [hidx] at hold
      exact absurd (Array.getElem?_eq_some_iff.mp hold).1 (Nat.lt_irrefl _)
    · rw [hold', Option.some.injEq] at hold
      subst hold
      have hyoung := hs.young _ _ hold'
      rw [hnext, UInt32.toNat_add]
      refine ⟨?_, hnone⟩
      rw [Nat.mod_eq_of_lt (by change old'.generation.toNat + 1 < 2 ^ 32; omega)]
      exact Nat.lt_succ_self _
  rcases s.fresh_write s' _ _ hget h rfl rfl hold with ⟨hfresh, hissued, hnode⟩
  exact ⟨h, s', hrun, hstored, hfresh, hissued, hnode, hroot, hfeed⟩

end Scene

end TreeWatch
