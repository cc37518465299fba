import TreeWatch.Forest
import TreeWatch.Proofs.Order

/-!
# Tables over Handles

Facts about finite maps whose keys are handles, in the form in which the
development uses them: lookups after a change are stated with equality of
keys, not with the outcome of a comparison.

## Theorems

* `HandleMap.get_insert`, `HandleMap.get_erase`: A lookup after a change.
* `HandleMap.contains_iff`: A key is there when its lookup succeeds.
* `HandleMap.length_le_size`: A list of keys is no longer than its table.
* `Forest.kids_insert`, `Forest.kids_erase`: A child list after a change.
* `Forest.entryCount_erase`: Dropping a list takes its entries out of the
  count.
-/

namespace TreeWatch

namespace HandleMap

variable {β : Type}

theorem get_insert (m : HandleMap β) (k x : Handle) (v : β) :
    (m.insert k v)[x]? = if k = x then some v else m[x]? := by
  by_cases hk : k = x
  · rw [if_pos hk, hk, Std.ExtTreeMap.getElem?_insert_self]
  · rw [if_neg hk, Std.ExtTreeMap.getElem?_insert,
      if_neg (mt Std.LawfulEqOrd.eq_of_compare hk)]

theorem get_erase (m : HandleMap β) (k x : Handle) :
    (m.erase k)[x]? = if k = x then none else m[x]? := by
  by_cases hk : k = x
  · rw [if_pos hk, hk, Std.ExtTreeMap.getElem?_erase_self]
  · rw [if_neg hk, Std.ExtTreeMap.getElem?_erase,
      if_neg (mt Std.LawfulEqOrd.eq_of_compare hk)]

theorem contains_iff (m : HandleMap β) (x : Handle) :
    m.contains x = true ↔ ∃ v, m[x]? = some v := by
  rw [Std.ExtTreeMap.contains_eq_isSome_getElem?, Option.isSome_iff_exists]

/-- A list of keys without repetition is no longer than the table. -/
theorem length_le_size (m : HandleMap β) (hs : List Handle) (hnd : hs.Nodup)
    (hsub : ∀ x ∈ hs, ∃ v, m[x]? = some v) : hs.length ≤ m.size := by
  rw [← Std.ExtTreeMap.length_keys]
  refine (List.subperm_of_subset hnd fun x hx => ?_).length_le
  exact Std.ExtTreeMap.mem_keys.mpr
    (Std.ExtTreeMap.mem_iff_contains.mpr ((contains_iff m x).mpr (hsub x hx)))

theorem nodup_toList (m : HandleMap β) : m.toList.Nodup := by
  refine m.ordered_keys_toList.imp fun {a b} hab => ?_
  rintro rfl
  exact lt_irrefl a.1 ((Handle.compare_eq_lt a.1 a.1).mp hab)

/-- An entry can be taken out of the list of a table by erasing its key. -/
theorem toList_perm_erase (m : HandleMap β) (k : Handle) (v : β) (hk : m[k]? = some v) :
    m.toList.Perm ((k, v) :: (m.erase k).toList) := by
  have hmem : ∀ x w, (x, w) ∈ (m.erase k).toList ↔ k ≠ x ∧ m[x]? = some w := by
    intro x w
    rw [Std.ExtTreeMap.mem_toList_iff_getElem?_eq_some, get_erase]
    by_cases hx : k = x
    · simp only [hx, if_true, reduceCtorEq, ne_eq, not_true_eq_false, false_and]
    · simp only [hx, if_false, ne_eq, not_false_eq_true, true_and]
  refine (List.perm_ext_iff_of_nodup (nodup_toList m) ?_).mpr ?_
  · exact List.nodup_cons.mpr ⟨fun h => ((hmem k v).mp h).1 rfl, nodup_toList _⟩
  · rintro ⟨x, w⟩
    rw [List.mem_cons, hmem, Std.ExtTreeMap.mem_toList_iff_getElem?_eq_some, Prod.mk.injEq]
    by_cases hx : x = k
    · simp only [hx, hk, Option.some.injEq, true_and, ne_eq, not_true_eq_false, false_and,
        or_false, eq_comm]
    · simp only [hx, false_and, ne_eq, Ne.symm hx, not_false_eq_true, true_and, false_or]

/-- A lookup after several keys were erased. -/
theorem get_eraseAll (m : HandleMap β) (hs : List Handle) (x : Handle) :
    (hs.foldl (·.erase ·) m)[x]? = if x ∈ hs then none else m[x]? := by
  induction hs generalizing m with
  | nil => simp only [List.foldl_nil, List.not_mem_nil, if_false]
  | cons h hs ih =>
      rw [List.foldl_cons, ih, get_erase]
      by_cases hx : x ∈ hs
      · simp only [hx, if_true, List.mem_cons, or_true]
      · by_cases hxh : h = x
        · simp only [hxh, if_true, List.mem_cons, true_or, ite_self]
        · simp only [hx, hxh, Ne.symm hxh, if_false, List.mem_cons, or_self]

end HandleMap

namespace Forest

theorem kids_eq (table : HandleMap (List Handle)) (h : Handle) :
    kids table h = table[h]?.getD [] := by
  rw [kids, Std.ExtTreeMap.getD_eq_getD_getElem?]

theorem kids_insert (table : HandleMap (List Handle)) (h x : Handle) (list : List Handle) :
    kids (table.insert h list) x = if h = x then list else kids table x := by
  rw [kids_eq, kids_eq, HandleMap.get_insert]
  split <;> rfl

theorem kids_erase (table : HandleMap (List Handle)) (h x : Handle) :
    kids (table.erase h) x = if h = x then [] else kids table x := by
  rw [kids_eq, kids_eq, HandleMap.get_erase]
  split <;> rfl

/-- The entries are those of the child lists put one behind the other. -/
theorem entryCount_eq (table : HandleMap (List Handle)) :
    entryCount table = (table.toList.flatMap Prod.snd).length := by
  have hfold : ∀ (es : List (Handle × List Handle)) (n : Nat),
      es.foldl (fun n e => n + e.2.length) n = n + (es.flatMap Prod.snd).length := by
    intro es
    induction es with
    | nil => exact fun n => (Nat.add_zero n).symm
    | cons e es ih =>
        intro n
        rw [List.foldl_cons, ih, List.flatMap_cons, List.length_append, Nat.add_assoc]
  rw [entryCount, Std.ExtTreeMap.foldl_eq_foldl_toList, hfold, Nat.zero_add]

/-- Dropping a child list takes its entries out of the count. -/
theorem entryCount_erase (table : HandleMap (List Handle)) (h : Handle) :
    entryCount table = (kids table h).length + entryCount (table.erase h) := by
  cases hk : table[h]? with
  | some list =>
      rw [entryCount_eq, entryCount_eq, kids_eq, hk, Option.getD_some,
        ((HandleMap.toList_perm_erase table h list hk).flatMap_right _).length_eq,
        List.flatMap_cons, List.length_append]
  | none =>
      have heq : table.erase h = table := by
        refine Std.ExtTreeMap.ext_getElem? fun x => ?_
        rw [HandleMap.get_erase]
        by_cases hx : h = x
        · rw [if_pos hx, ← hx, hk]
        · rw [if_neg hx]
      rw [heq, kids_eq, hk, Option.getD_none, List.length_nil, Nat.zero_add]

end Forest

end TreeWatch
