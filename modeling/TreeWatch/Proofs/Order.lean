import Mathlib.Data.FinEnum
import Mathlib.Data.List.Sort
import TreeWatch.Handle
import TreeWatch.Text.Number

/-!
# Ascending Lists of Handles

Every list of children is kept in handle order, and every row number is a
place in such a list. An ascending list is determined by its members, so what
a mutation does to a child list never has to be computed entry by entry: it is
enough to know which handles are in the list afterwards. All row arithmetic of
this development comes down to that.

Handles are machine words, so there are only finitely many of them. That
bounds the length of any list without repetition and is the reason why row
counts never leave the range of a word.

## Main definitions

* `Ascending`: A list whose entries grow strictly.

## Theorems

* `length_le_of_nodup`: A list without repetition has at most `2 ^ 64` entries.
* `length_lt_of_nodup`: It has fewer if some handle is missing.
* `idxOf?_eq_some_iff_of_nodup`: The row of a handle in a list without repetition.
* `ascending_ext`: An ascending list is determined by its members.
* `ascending_spec`: Ordering a list keeps its members.
* `insertInto_eq`: Where a handle goes in a list.
* `ascending_insertInto`: Putting in a new handle keeps the order.
* `ascending_prefix`: What a change leaves of a list whose front it keeps.
-/

namespace TreeWatch

namespace Handle

theorem lt_iff (a b : Handle) : a < b ↔ a.raw.toNat < b.raw.toNat := UInt64.lt_iff_toNat_lt

theorem le_iff (a b : Handle) : a ≤ b ↔ a.raw.toNat ≤ b.raw.toNat := UInt64.le_iff_toNat_le

theorem raw_toNat_injective : Function.Injective fun h : Handle => h.raw.toNat := by
  intro a b hab
  cases a
  cases b
  exact congrArg mk (UInt64.toNat_inj.mp hab)

instance : LinearOrder Handle where
  le_refl a := (le_iff a a).mpr (Nat.le_refl _)
  le_trans a b c hab hbc := by
    rw [le_iff] at hab hbc ⊢
    omega
  lt_iff_le_not_ge a b := by
    rw [lt_iff, le_iff, le_iff]
    omega
  le_antisymm a b hab hba := by
    rw [le_iff] at hab hba
    exact raw_toNat_injective (by dsimp only; omega)
  le_total a b := by
    rw [le_iff, le_iff]
    omega
  toDecidableLE := inferInstance
  toDecidableLT := inferInstance
  toDecidableEq := inferInstance
  compare_eq_compareOfLessAndEq a b := by
    unfold compareOfLessAndEq
    by_cases hlt : a < b
    · rw [if_pos hlt, (compare_eq_lt a b).mpr hlt]
    · rw [if_neg hlt]
      by_cases heq : a = b
      · rw [if_pos heq, heq]
        exact Std.ReflCmp.compare_self
      · rw [if_neg heq]
        cases hc : compare a b with
        | lt => exact absurd ((compare_eq_lt a b).mp hc) hlt
        | eq => exact absurd (Std.LawfulEqOrd.eq_of_compare hc) heq
        | gt => rfl

instance : Finite Handle := Finite.of_injective raw fun a b h => by
  cases a
  cases b
  exact congrArg mk h

/-- A list of handles without repetition has no more entries than there are
    machine words. -/
theorem length_le_of_nodup (hs : List Handle) (hnd : hs.Nodup) : hs.length ≤ Text.wordBound := by
  have hsub : hs.map (fun h => h.raw.toNat) ⊆ List.range (2 ^ 64) := by
    intro n hn
    rcases List.mem_map.mp hn with ⟨h, _, rfl⟩
    exact List.mem_range.mpr h.raw.toNat_lt
  have hlen := (List.subperm_of_subset (hnd.map raw_toNat_injective) hsub).length_le
  rw [List.length_map, List.length_range] at hlen
  exact hlen

/-- If some handle is missing in it, such a list has strictly fewer entries. -/
theorem length_lt_of_nodup (hs : List Handle) (h : Handle) (hnd : hs.Nodup) (hh : h ∉ hs) :
    hs.length < Text.wordBound := by
  have hlen := length_le_of_nodup (h :: hs) (List.nodup_cons.mpr ⟨hh, hnd⟩)
  rw [List.length_cons] at hlen
  omega

/-- A list whose entries grow strictly. -/
def Ascending (hs : List Handle) : Prop := hs.Pairwise (· < ·)

theorem Ascending.nodup (hs : List Handle) (h : Ascending hs) : hs.Nodup := List.Pairwise.nodup h

-- No handle comes twice, so the row that holds it is the first one.
theorem idxOf?_eq_some_iff_of_nodup (hs : List Handle) (hnd : hs.Nodup) (h : Handle) (row : Nat) :
    hs.idxOf? h = some row ↔ hs[row]? = some h := by
  rw [List.idxOf?_eq_some_iff, List.getElem?_eq_some_iff]
  constructor
  · rintro ⟨hlt, hget, _⟩
    exact ⟨hlt, hget⟩
  · rintro ⟨hlt, hget⟩
    refine ⟨hlt, hget, fun j hj hjh => ?_⟩
    have hjrow := hnd.getElem_inj_iff.mp (hjh.trans hget.symm)
    omega

/-- An ascending list is determined by its members. -/
theorem ascending_ext (hs ks : List Handle) (h : Ascending hs) (k : Ascending ks)
    (hmem : ∀ x, x ∈ hs ↔ x ∈ ks) : hs = ks :=
  List.Pairwise.eq_of_mem_iff h k hmem

/-- The order of a list puts its members in an ascending list. -/
theorem ascending_spec (hs : List Handle) :
    Ascending (ascending hs) ∧ ∀ x, x ∈ ascending hs ↔ x ∈ hs := by
  unfold ascending
  refine ⟨?_, fun x => ?_⟩
  · refine (Std.ExtTreeSet.ordered_toList (t := Std.ExtTreeSet.ofList hs)).imp ?_
    intro a b hab
    exact (compare_eq_lt a b).mp hab
  · rw [Std.ExtTreeSet.mem_toList, Std.ExtTreeSet.mem_ofList, List.contains_iff_mem]

theorem insertInto_eq (h : Handle) (hs : List Handle) :
    h.insertInto hs = hs.takeWhile (· < h) ++ h :: hs.dropWhile (· < h) := by
  induction hs with
  | nil => rfl
  | cons x xs ih =>
      by_cases hx : x < h
      · simp only [insertInto, hx, if_true, ih, List.takeWhile_cons, List.dropWhile_cons,
          decide_true, List.cons_append]
      · simp only [insertInto, hx, if_false, List.takeWhile_cons, List.dropWhile_cons,
          decide_false, Bool.false_eq_true, List.nil_append]

@[simp] theorem mem_insertInto (h x : Handle) (hs : List Handle) :
    x ∈ h.insertInto hs ↔ x = h ∨ x ∈ hs := by
  rw [insertInto_eq, List.mem_append, List.mem_cons]
  nth_rewrite 3 [← List.takeWhile_append_dropWhile (p := (· < h)) (l := hs)]
  rw [List.mem_append]
  tauto

/-- Putting a new handle into an ascending list keeps the order. -/
theorem ascending_insertInto (h : Handle) (hs : List Handle) (hasc : Ascending hs)
    (hh : h ∉ hs) : Ascending (h.insertInto hs) := by
  induction hs with
  | nil => exact List.pairwise_singleton _ h
  | cons x xs ih =>
      rcases List.pairwise_cons.mp hasc with ⟨hx, hxs⟩
      have hne : x ≠ h := fun he => hh (he ▸ List.mem_cons_self)
      unfold insertInto
      by_cases hlt : x < h
      · rw [if_pos hlt]
        refine List.pairwise_cons.mpr
          ⟨fun y hy => ?_, ih hxs fun hm => hh (List.mem_cons_of_mem x hm)⟩
        rcases (mem_insertInto h y xs).mp hy with rfl | hy
        · exact hlt
        · exact hx y hy
      · rw [if_neg hlt]
        have hhx : h < x := lt_of_le_of_ne (not_lt.mp hlt) hne.symm
        refine List.pairwise_cons.mpr ⟨fun y hy => ?_, hasc⟩
        rcases List.mem_cons.mp hy with rfl | hy
        · exact hhx
        · exact hhx.trans (hx y hy)

/-- What is left of an ascending list behind its smaller entries is not
    smaller. -/
theorem le_of_mem_dropWhile (h : Handle) (hs : List Handle) (hasc : Ascending hs) (x : Handle)
    (hx : x ∈ hs.dropWhile (· < h)) : h ≤ x := by
  induction hs with
  | nil => exact absurd hx List.not_mem_nil
  | cons y ys ih =>
      rcases List.pairwise_cons.mp hasc with ⟨hy, hys⟩
      by_cases hlt : y < h
      · simp only [List.dropWhile_cons, hlt, decide_true, if_true] at hx
        exact ih hys hx
      · simp only [List.dropWhile_cons, hlt, decide_false, Bool.false_eq_true, if_false] at hx
        rcases List.mem_cons.mp hx with rfl | hx
        · exact not_lt.mp hlt
        · exact (not_lt.mp hlt).trans (hy x hx).le

/-- If a change keeps the front of an ascending list and puts nothing new into
    it, what follows the front afterwards was behind it before. -/
theorem ascending_prefix (as bs hs : List Handle) (h : Ascending (as ++ bs)) (k : Ascending hs)
    (hfront : ∀ x ∈ as, x ∈ hs) (hnew : ∀ x ∈ hs, x ∈ as ++ bs) :
    ∃ cs, hs = as ++ cs ∧ ∀ x ∈ cs, x ∈ bs := by
  refine ⟨bs.filter (· ∈ hs), ?_, fun x hx => (List.mem_filter.mp hx).1⟩
  have hsub : (as ++ bs.filter (· ∈ hs)).Sublist (as ++ bs) :=
    (List.Sublist.refl as).append List.filter_sublist
  refine ascending_ext _ _ k (h.sublist hsub) fun x => ?_
  rw [List.mem_append, List.mem_filter, decide_eq_true_eq]
  constructor
  · intro hx
    rcases List.mem_append.mp (hnew x hx) with ha | hb
    · exact Or.inl ha
    · exact Or.inr ⟨hb, hx⟩
  · intro hx
    rcases hx with ha | ⟨_, hx⟩
    · exact hfront x ha
    · exact hx

end Handle

end TreeWatch
