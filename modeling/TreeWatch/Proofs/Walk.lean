import TreeWatch.Proofs.Table
import TreeWatch.Proofs.Tree

/-!
# Complete Walks

The walks of this library take the number of nodes they may visit. A statement
about them that carried this number along would have to be proved again for
every bound, so the walk that nothing cuts short is defined here as a relation
without one. `Walk kids roots out` says that the pre-order walk from `roots`
visits exactly `out` and then has nothing left to visit.

Everything about a walk is proved of the relation, by induction on it, and
two lemmas carry it over: `preorder_eq_of_walk` and `uproot_eq_of_walk` say
that a bounded walk with enough room is the complete one. On a tree a complete
walk exists (`IsTree.exists_walk`), it visits what lies under its roots
(`mem_walk`), each node once (`nodup_walk`) and after its parent
(`parent_first_of_walk`).

The walk that drops child lists as it goes is bounded by the number of entries
of the table. Each entry is the reason for one visit, and dropping a list
takes its entries out of the count, so the bound shrinks along with what is
left to do.

## Main definitions

* `Walk`: The complete pre-order walk over a child function.

## Theorems

* `walk_append`: Walking two lists of roots is walking one after the other.
* `IsTree.exists_walk`: A walk over a tree comes to an end.
* `mem_walk`: A walk visits exactly what lies under its roots.
* `nodup_walk`: It visits nothing twice.
* `parent_first_of_walk`: A node is a root or comes after its parent.
* `Walk.congr`: Only the child lists of visited nodes matter.
* `preorder_eq_of_walk`: The bounded walk with enough room is complete.
* `uproot_eq_of_walk`: The walk that drops child lists visits the same nodes
  and drops exactly their lists.
-/

namespace TreeWatch

namespace Forest

/-- The pre-order walk from `roots` visits exactly the nodes of `out`. -/
inductive Walk (kids : Handle → List Handle) : List Handle → List Handle → Prop where
  /-- Without roots there is nothing to visit. -/
  | done : Walk kids [] []
  /-- The first root is visited, then its children, then the other roots. -/
  | visit (h : Handle) (rest out : List Handle) (hw : Walk kids (kids h ++ rest) out) :
      Walk kids (h :: rest) (h :: out)

section Walks

variable {kids kids' : Handle → List Handle}

theorem walk_append (as bs outA outB : List Handle) (ha : Walk kids as outA)
    (hb : Walk kids bs outB) : Walk kids (as ++ bs) (outA ++ outB) := by
  induction ha with
  | done => exact hb
  | visit h rest out _ ih =>
      refine Walk.visit h (rest ++ bs) (out ++ outB) ?_
      rw [← List.append_assoc]
      exact ih

/-- Only the child lists of the visited nodes matter. -/
theorem Walk.congr (roots out : List Handle) (hw : Walk kids roots out)
    (heq : ∀ x ∈ out, kids' x = kids x) : Walk kids' roots out := by
  induction hw with
  | done => exact Walk.done
  | visit h rest out _ ih =>
      refine Walk.visit h rest out ?_
      rw [heq h List.mem_cons_self]
      exact ih fun x hx => heq x (List.mem_cons_of_mem h hx)

/-- A node is a root or comes after its parent. -/
theorem parent_first_of_walk (roots out : List Handle) (hw : Walk kids roots out) :
    ∀ before x after, out = before ++ x :: after →
      x ∈ roots ∨ ∃ p ∈ before, x ∈ kids p := by
  induction hw with
  | done =>
      intro before x after hout
      exact absurd hout.symm (by simp only [List.append_eq_nil_iff, reduceCtorEq, and_false,
        not_false_eq_true])
  | visit h rest out _ ih =>
      intro before x after hout
      cases before with
      | nil =>
          rw [List.nil_append, List.cons.injEq] at hout
          exact Or.inl (hout.1 ▸ List.mem_cons_self)
      | cons b before =>
          rw [List.cons_append, List.cons.injEq] at hout
          rcases ih before x after hout.2 with hx | ⟨p, hp, hx⟩
          · rcases List.mem_append.mp hx with hx | hx
            · exact Or.inr ⟨h, hout.1 ▸ List.mem_cons_self, hx⟩
            · exact Or.inl (List.mem_cons_of_mem h hx)
          · exact Or.inr ⟨p, List.mem_cons_of_mem b hp, hx⟩

/-- The bounded walk is the complete one if it may visit as many nodes. -/
theorem preorder_eq_of_walk (roots out : List Handle) (hw : Walk kids roots out) :
    ∀ bound, out.length ≤ bound → preorder kids bound roots = out := by
  induction hw with
  | done => exact fun bound _ => preorder_nil kids bound
  | visit h rest out _ ih =>
      intro bound hb
      cases bound with
      | zero => exact absurd hb (by rw [List.length_cons]; omega)
      | succ n =>
          rw [List.length_cons] at hb
          rw [preorder_cons, ih n (by omega)]

end Walks

section Trees

variable {root : Option Handle} {up : Handle → Option Handle} {kids : Handle → List Handle}

/-- A walk over a tree comes to an end. The induction is from the leaves: the
    walk of a node is put together from the walks of its children. -/
theorem IsTree.exists_walk (t : IsTree root up kids) (roots : List Handle) :
    ∃ out, Walk kids roots out := by
  have hlist : ∀ hs : List Handle, (∀ h ∈ hs, ∃ out, Walk kids [h] out) →
      ∃ out, Walk kids hs out := by
    intro hs
    induction hs with
    | nil => exact fun _ => ⟨[], Walk.done⟩
    | cons h rest ih =>
        intro hall
        rcases hall h List.mem_cons_self with ⟨outH, hh⟩
        rcases ih fun x hx => hall x (List.mem_cons_of_mem h hx) with ⟨outR, hr⟩
        exact ⟨outH ++ outR, walk_append [h] rest outH outR hh hr⟩
  have hone : ∀ h, ∃ out, Walk kids [h] out := by
    refine t.leaf_induction fun h ih => ?_
    rcases hlist (kids h) ih with ⟨out, hw⟩
    exact ⟨h :: out, Walk.visit h [] out (by rwa [List.append_nil])⟩
  exact hlist roots fun h _ => hone h

/-- A walk visits exactly what lies under its roots. -/
theorem mem_walk (t : IsTree root up kids) (roots out : List Handle) (hw : Walk kids roots out)
    (x : Handle) : x ∈ out ↔ ∃ r ∈ roots, Under up x r := by
  induction hw with
  | done => simp only [List.not_mem_nil, false_and, exists_false]
  | visit h rest out _ ih =>
      simp only [List.mem_append] at ih
      rw [List.mem_cons, ih]
      constructor
      · rintro (rfl | ⟨r, hr | hr, hu⟩)
        · exact ⟨x, List.mem_cons_self, Under.refl x⟩
        · exact ⟨h, List.mem_cons_self, (t.under_iff_kid x h).mpr (Or.inr ⟨r, hr, hu⟩)⟩
        · exact ⟨r, List.mem_cons_of_mem h hr, hu⟩
      · rintro ⟨r, hr, hu⟩
        rcases List.mem_cons.mp hr with rfl | hr
        · rcases (t.under_iff_kid x r).mp hu with rfl | ⟨c, hc, hu⟩
          · exact Or.inl rfl
          · exact Or.inr ⟨c, Or.inl hc, hu⟩
        · exact Or.inr ⟨r, Or.inr hr, hu⟩

/-- Roots none of which lies under another. -/
def Apart (up : Handle → Option Handle) (roots : List Handle) : Prop :=
  roots.Pairwise fun a b => ¬ Under up a b ∧ ¬ Under up b a

/-- The children of a node are apart. -/
theorem IsTree.kids_apart (t : IsTree root up kids) (p : Handle) : Apart up (kids p) := by
  refine List.Pairwise.imp_of_mem (fun {a b} ha hb hne => ?_) (t.nodup p)
  exact ⟨t.sibling_not_under p a b ha hb hne, t.sibling_not_under p b a hb ha (Ne.symm hne)⟩

/-- A walk from roots that are apart visits nothing twice. -/
theorem nodup_walk (t : IsTree root up kids) (roots out : List Handle) (hw : Walk kids roots out)
    (hap : Apart up roots) : out.Nodup := by
  induction hw with
  | done => exact List.nodup_nil
  | visit h rest out hw ih =>
      rcases List.pairwise_cons.mp hap with ⟨hh, hrest⟩
      have hkid : ∀ c ∈ kids h, ∀ r ∈ rest, ¬ Under up c r ∧ ¬ Under up r c := by
        intro c hc r hr
        have hch := (t.mem_kids h c).mp hc
        refine ⟨fun hu => ?_, fun hu => (hh r hr).2 (hu.trans (Under.of_up hch))⟩
        rcases (under_iff_up c r).mp hu with rfl | ⟨p, hp, hpr⟩
        · exact (hh c hr).2 (Under.of_up hch)
        · rw [hch, Option.some.injEq] at hp
          exact (hh r hr).1 (hp ▸ hpr)
      have hap' : Apart up (kids h ++ rest) :=
        List.pairwise_append.mpr ⟨t.kids_apart h, hrest, hkid⟩
      refine List.nodup_cons.mpr ⟨fun hmem => ?_, ih hap'⟩
      -- A second visit would come from a child, below `h`, or from another root.
      rcases (mem_walk t _ _ hw h).mp hmem with ⟨r, hr, hu⟩
      rcases List.mem_append.mp hr with hr | hr
      · exact t.acyclic r h ((t.mem_kids h r).mp hr) hu
      · exact (hh r hr).1 hu

end Trees

section Tables

/-- The complete walk is the one that drops child lists if it may visit as
    many nodes as there are roots and entries. Dropping the list of a visited
    node is harmless to the rest of the walk, which does not come back to it,
    and takes as many entries out of the count as it adds roots. -/
theorem uprootWithin_eq_of_walk (roots out : List Handle) (table : HandleMap (List Handle))
    (hw : Walk (kids table) roots out) (hnd : out.Nodup) :
    ∀ bound, roots.length + entryCount table ≤ bound →
      (uprootWithin bound roots table).1 = out ∧
      ∀ x, (uprootWithin bound roots table).2[x]? = if x ∈ out then none else table[x]? := by
  induction out generalizing roots table with
  | nil =>
      intro bound _
      cases hw
      cases bound with
      | zero => exact ⟨rfl, fun x => by simp only [uprootWithin, List.not_mem_nil, if_false]⟩
      | succ n => exact ⟨rfl, fun x => by simp only [uprootWithin, List.not_mem_nil, if_false]⟩
  | cons h out ih =>
      intro bound hb
      cases hw with
      | visit _ rest _ hw =>
          rcases List.nodup_cons.mp hnd with ⟨hh, hnd⟩
          cases bound with
          | zero => exact absurd hb (by rw [List.length_cons]; omega)
          | succ n =>
              have hw' : Walk (kids (table.erase h)) (kids table h ++ rest) out := by
                refine hw.congr _ _ fun x hx => ?_
                rw [kids_erase, if_neg (by rintro rfl; exact hh hx)]
              have hcount := entryCount_erase table h
              rw [List.length_cons] at hb
              rcases ih (kids table h ++ rest) (table.erase h) hw' hnd n
                (by rw [List.length_append]; omega) with ⟨hvisited, hleft⟩
              refine ⟨?_, fun x => ?_⟩
              · simp only [uprootWithin, hvisited]
              · simp only [uprootWithin, hleft, HandleMap.get_erase, List.mem_cons]
                by_cases hx : x ∈ out
                · simp only [hx, if_true, or_true]
                · by_cases hxh : x = h
                  · simp only [hxh, if_true, true_or, ite_self]
                  · simp only [hx, hxh, Ne.symm hxh, if_false, false_or]

/-- Dropping the child lists of a forest drops those of the visited nodes and
    no others. -/
theorem uproot_eq_of_walk (roots out : List Handle) (table : HandleMap (List Handle))
    (hw : Walk (kids table) roots out) (hnd : out.Nodup) :
    (uproot roots table).1 = out ∧
      ∀ x, (uproot roots table).2[x]? = if x ∈ out then none else table[x]? :=
  uprootWithin_eq_of_walk roots out table hw hnd _ (Nat.le_refl _)

end Tables

end Forest

end TreeWatch
