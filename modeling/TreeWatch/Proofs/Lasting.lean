import TreeWatch.Proofs.Laws
import TreeWatch.Proofs.Upkeep

/-!
# What Lasts

Every change of a record is made of a few small ones: a node is forgotten with
all below it, or a new node is recorded under a tracked one. A property of
records that holds of a lone root and survives these two lasts, which is to
say that it is a law of steps.

Soundness lasts, even if a source contradicts itself. So does being trim. A node
without children has an empty list in the table of a record or none at all, and
no lookup tells the one from the other. A record in which no list is empty is
trim. The changes drop a list that becomes empty, so records stay trim, and two
trim records that are alike are equal.

## Main definitions

* `Store.Lasting`: A property that the changes of a record preserve.
* `Step.Lasts`: A property is preserved between two moments of a step.
* `Store.Trim`: No child list of a record is empty.
* `Store.Alike`: No lookup tells two records apart.

## Theorems

* `Store.Lasting.law`: What lasts is a law of steps.
* `Store.lasting_sound`, `Store.lasting_trim`: Two properties that last.
* `Step.trim_relocate`: A move keeps a record trim.
* `Store.Alike.eq_of_trim`: Trim records are determined by their lookups.
-/

namespace TreeWatch

namespace Store

/-- A property of records that holds of a lone root, and that is preserved when
    a node is forgotten and when a new one is recorded. -/
structure Lasting (P : Store → Prop) : Prop where
  ofRoot : ∀ root, P (ofRoot root)
  remove : ∀ s h, P s → P (s.remove h).2
  link : ∀ s p h, P s → s.contains p = true → s.contains h = false → P (s.link p h)

section Lasting

variable {P : Store → Prop} (hP : Lasting P) (s : Store) (hs : P s)

include hP hs

-- Nodes are forgotten one after the other.
theorem Lasting.removeAll (victims : List Handle) : P (s.removeAll victims).2 := by
  induction victims generalizing s with
  | nil => exact hs
  | cons v rest ih =>
      rw [removeAll_cons]
      exact ih _ (hP.remove s v hs)

-- A node is recorded only if it is new and its parent is tracked.
theorem Lasting.populate (h : Handle) (fill : Snapshot) : P (s.populate h fill) := by
  refine List.foldlRecOn (fill.descendants h) _ hs fun t ht x _ => ?_
  cases fill.parent x with
  | none => exact ht
  | some p =>
      dsimp only
      by_cases hfits : (!t.contains x && t.contains p) = true
      · rw [if_pos hfits]
        rw [Bool.and_eq_true, Bool.not_eq_true'] at hfits
        exact hP.link t p x ht hfits.2 hfits.1
      · rw [if_neg hfits]
        exact ht

-- A batch is recorded only if it is new, and only under a tracked node.
theorem Lasting.insertFilled (parent : Handle) (handles : List Handle) (fill : Snapshot)
    (t : Store) (hok : s.insertFilled parent handles fill = .ok t) : P t := by
  induction handles generalizing s with
  | nil =>
      simp only [Store.insertFilled, List.foldlM_nil, pure, Except.pure, Except.ok.injEq] at hok
      exact hok ▸ hs
  | cons h rest ih =>
      rw [Store.insertFilled, List.foldlM_cons] at hok
      by_cases hp : s.contains parent = true
      · cases hh : s.contains h with
        | true =>
            simp only [insert, hp, hh, Bool.not_true, Bool.false_eq_true, if_false, if_true, bind,
              Except.bind, reduceCtorEq] at hok
        | false =>
            simp only [insert, hp, hh, Bool.not_true, Bool.false_eq_true, if_false, bind,
              Except.bind, pure, Except.pure] at hok
            exact ih _ (hP.populate _ (hP.link s parent h hs hp hh) h fill) hok
      · simp only [insert, hp, Bool.not_false, if_true, bind, Except.bind, reduceCtorEq] at hok

end Lasting

end Store

namespace Step

/-- The record has the property at the second moment if it has it at the
    first. -/
def Lasts (P : Store → Prop) (s s' : Step) : Prop := P s.store → P s'.store

end Step

namespace Store

open Step (Law Lasts)

/-- What lasts is a law of steps. -/
theorem Lasting.law {P : Store → Prop} (hP : Lasting P) (isAlive : Handle → Bool)
    (mayEnter : Handle → Prop) : Law isAlive mayEnter (Lasts P) where
  keeps _ _ hstore _ := fun hs => hstore ▸ hs
  trans _ _ _ h h' := fun hs => h' (h hs)
  removeRows s parent first last s' hok := by
    intro hs
    rcases s.removeRows_cases isAlive parent first last s' hok with
      rfl | ⟨under, m, out, rfl, hstore, _, rfl, _⟩
    · exact hs
    · rw [id, Step.announceDeleted, hstore]
      exact hP.removeAll s.store hs _
  insertRows s parent first handles fill _ s' hok := by
    intro hs
    rcases s.insertRows_cases parent first handles fill s' hok with
      rfl | ⟨under, last, hins, _⟩
    · exact hs
    · exact hP.insertFilled s.store hs parent handles fill _ hins
  reset s root fill _ _ := by
    intro _
    cases root with
    | none => exact hP.ofRoot none
    | some r => exact hP.populate _ (hP.ofRoot (some r)) r fill

/-- Soundness lasts. -/
theorem lasting_sound : Lasting Sound where
  ofRoot := sound_ofRoot
  remove s h hs := hs.remove_sound s h
  link s p h hs := hs.link_new s p h

end Store

namespace Forest

-- A walk drops lists and leaves the others alone.
theorem get_uprootWithin (bound : Nat) (roots : List Handle) (table : HandleMap (List Handle))
    (x : Handle) : (uprootWithin bound roots table).2[x]? = none ∨
      (uprootWithin bound roots table).2[x]? = table[x]? := by
  induction bound generalizing roots table with
  | zero => exact Or.inr rfl
  | succ bound ih =>
      cases roots with
      | nil => exact Or.inr rfl
      | cons h rest =>
          rw [uprootWithin]
          refine (ih (kids table h ++ rest) (table.erase h)).elim Or.inl fun hx => ?_
          rw [HandleMap.get_erase] at hx
          by_cases hhx : h = x
          · exact Or.inl (by rw [hx, if_pos hhx])
          · exact Or.inr (by rw [hx, if_neg hhx])

end Forest

namespace Store

/-- No child list of the record is empty. -/
def Trim (s : Store) : Prop := ∀ p : Handle, s.childLists[p]? ≠ some []

theorem trim_ofRoot (root : Option Handle) : (ofRoot root).Trim := by
  intro p
  simp only [ofRoot, Std.ExtTreeMap.getElem?_empty, ne_eq, reduceCtorEq, not_false_eq_true]

section Trim

variable (s : Store) (hs : s.Trim)

include hs

-- A list that is recorded is what its node has for children.
theorem Trim.get (p : Handle) :
    s.childLists[p]? = if s.children p = [] then none else some (s.children p) := by
  rw [children, Forest.kids_eq]
  cases hp : s.childLists[p]? with
  | none => rfl
  | some list =>
      have hne : list ≠ [] := fun he => hs p (he ▸ hp)
      rw [Option.getD_some, if_neg hne]

theorem Trim.link (p h : Handle) : (s.link p h).Trim := by
  intro x hx
  rw [Store.link, HandleMap.get_insert] at hx
  by_cases hpx : p = x
  · rw [if_pos hpx, Option.some.injEq, Handle.insertInto_eq] at hx
    exact List.append_ne_nil_of_right_ne_nil _ (List.cons_ne_nil _ _) hx
  · rw [if_neg hpx] at hx
    exact hs x hx

theorem Trim.detach (h : Handle) : (s.detach h).2.Trim := by
  unfold Store.detach
  cases s.parent h with
  | none => exact hs
  | some p =>
      intro x hx
      dsimp only at hx
      by_cases hempty : ((s.children p).erase h).isEmpty = true
      · rw [if_pos hempty, HandleMap.get_erase] at hx
        by_cases hpx : p = x
        · rw [if_pos hpx] at hx
          exact Option.some_ne_none [] hx.symm
        · rw [if_neg hpx] at hx
          exact hs x hx
      · rw [if_neg hempty, HandleMap.get_insert] at hx
        by_cases hpx : p = x
        · rw [if_pos hpx, Option.some.injEq] at hx
          exact hempty (List.isEmpty_iff.mpr hx)
        · rw [if_neg hpx] at hx
          exact hs x hx

theorem Trim.prune (roots : List Handle) : (s.prune roots).2.Trim := by
  intro x hx
  rcases Forest.get_uprootWithin (roots.length + Forest.entryCount s.childLists) roots s.childLists
    x with hget | hget
  · exact Option.some_ne_none [] (hx.symm.trans hget)
  · exact hs x (hget.symm.trans hx)

theorem Trim.remove (h : Handle) : (s.remove h).2.Trim := by
  unfold Store.remove
  by_cases hh : (!s.contains h) = true
  · rw [if_pos hh]
    exact hs
  · rw [if_neg hh]
    by_cases hroot : s.root = some h
    · rw [if_pos hroot]
      exact trim_ofRoot none
    · rw [if_neg hroot]
      exact (hs.detach s h).prune _ [h]

end Trim

/-- Being trim lasts. -/
theorem lasting_trim : Lasting Trim where
  ofRoot := trim_ofRoot
  remove s h hs := hs.remove s h
  link s p h hs _ _ := hs.link s p h

/-- Every lookup in one record gives what it gives in the other. -/
structure Alike (s t : Store) : Prop where
  root : s.root = t.root
  parent : ∀ x, s.parent x = t.parent x
  children : ∀ x, s.children x = t.children x

theorem Alike.refl (s : Store) : s.Alike s := ⟨rfl, fun _ => rfl, fun _ => rfl⟩

/-- Trim records that are alike are equal. -/
theorem Alike.eq_of_trim (s t : Store) (h : s.Alike t) (hs : s.Trim) (ht : t.Trim) : s = t := by
  have hparents : s.parents = t.parents := Std.ExtTreeMap.ext_getElem? fun x => h.parent x
  have hlists : s.childLists = t.childLists := by
    refine Std.ExtTreeMap.ext_getElem? fun x => ?_
    rw [hs.get, ht.get, h.children]
  cases s
  cases t
  simp only [mk.injEq]
  exact ⟨h.root, hparents, hlists⟩

end Store

/-- A move keeps a record trim. -/
theorem Step.trim_relocate (s : Step) (h parent : Handle) :
    Abides (Lasts Store.Trim) s Prod.snd (s.relocate h parent) := by
  intro done hok hs
  rcases s.relocate_cases h parent done hok with hsame | ⟨_, _, _, _, _, _, _, hstore, _⟩
  · rwa [hsame]
  · rw [hstore]
    exact (hs.detach s.store h).link _ parent h

end TreeWatch
