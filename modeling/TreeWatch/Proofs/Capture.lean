import TreeWatch.Proofs.Walk
import TreeWatch.Snapshot
import TreeWatch.Source

/-!
# Captures Are Trees

A capture takes any child function, one that lists a node under two parents
or below itself included, and what comes out is always a tree. This is what
the rest of the development knows about a snapshot: a full pass and a point
edit are compared with it, and neither ever asks where it came from.

The capture keeps a stack of nodes it has not expanded. A node goes onto the
stack when it is captured, which happens once, so the expanded nodes and the
stack together have no repetition. There are only as many handles as machine
words, and the bound of the expansion is that number. When the bound is used up,
every handle there is has been expanded and the stack is empty. So the expansion
is the one that nothing cuts short (`Explores`), and a capture is closed: what is
listed under a captured node is captured.

## Main definitions

* `Snapshot.Proper`: The tables of a snapshot describe one tree.
* `Snapshot.Captures`: A proper snapshot of all that a root leads to.
* `Snapshot.Growing`: What a capture preserves while it is under way.
* `Snapshot.Explores`: The expansion of a stack until it is empty.
* `Snapshot.Built`: The snapshots that the operations of this library make.

## Theorems

* `Snapshot.Proper.walk_descendants`: The nodes below a node, as a walk.
* `Snapshot.Growing.adopt`: Expanding a node keeps the invariant.
* `Snapshot.grow_eq_of_explores`: The bounded expansion with enough room is
  complete.
* `Snapshot.explores_capture`: A capture is a complete expansion.
* `Snapshot.captures_capture`: A capture is proper and closed.
* `Snapshot.Built.proper`: Every snapshot that can be built is proper.
* `Snapshot.Captures.parent_eq`: The capture of a tree has its links.
-/

namespace TreeWatch

open Forest (Under under_iff_up)

namespace Snapshot

/-- The tables of a snapshot describe one tree, its child lists are in order,
    and its nodes are those that have a list. -/
structure Proper (s : Snapshot) : Prop where
  tree : Forest.IsTree s.root s.parent s.children
  ascending : ∀ p, Handle.Ascending (s.children p)
  contains_iff : ∀ h, s.contains h = true ↔ Forest.Held s.root s.parent h

section Descendants

variable (s : Snapshot) (hs : s.Proper)

include hs

theorem Proper.contains_of_parent (h p : Handle) (hp : s.parent h = some p) :
    s.contains h = true ∧ s.contains p = true := by
  rw [hs.contains_iff, hs.contains_iff]
  exact ⟨Or.inr ⟨p, hp⟩, hs.tree.held_up h p hp⟩

/-- The nodes below a node are listed in the order of the complete walk. The
    walk visits nodes of the snapshot only, each once, so it is no longer than
    the snapshot is large. -/
theorem Proper.walk_descendants (h : Handle) :
    Forest.Walk s.children (s.children h) (s.descendants h) := by
  rcases hs.tree.exists_walk (s.children h) with ⟨out, hw⟩
  have hnd := Forest.nodup_walk hs.tree (s.children h) out hw (hs.tree.kids_apart h)
  have hsize : out.length ≤ s.childLists.size := by
    refine HandleMap.length_le_size s.childLists out hnd fun x hx => ?_
    rcases (Forest.mem_walk hs.tree _ out hw x).mp hx with ⟨c, hc, hu⟩
    have hheld := Forest.held_of_above s.root s.parent x c hu
      (Or.inr ⟨h, (hs.tree.mem_kids h c).mp hc⟩)
    exact (HandleMap.contains_iff s.childLists x).mp ((hs.contains_iff x).mpr hheld)
  rw [descendants, Forest.preorder_eq_of_walk (s.children h) out hw s.size hsize]
  exact hw

/-- The nodes below a node are those that lie under it, without itself. -/
theorem Proper.mem_descendants (h x : Handle) :
    x ∈ s.descendants h ↔ ∃ c, s.parent c = some h ∧ Under s.parent x c := by
  rw [Forest.mem_walk hs.tree _ _ (hs.walk_descendants s h)]
  simp only [hs.tree.mem_kids]

theorem Proper.mem_descendants_iff_ne (h x : Handle) :
    x ∈ s.descendants h ↔ x ≠ h ∧ Under s.parent x h := by
  rw [hs.mem_descendants]
  constructor
  · rintro ⟨c, hc, hu⟩
    refine ⟨?_, hu.trans (Under.of_up hc)⟩
    rintro rfl
    exact hs.tree.acyclic c x hc hu
  · rintro ⟨hne, hu⟩
    rcases (Forest.under_iff_down x h).mp hu with he | ⟨c, hxc, hc⟩
    · exact absurd he hne
    · exact ⟨c, hc, hxc⟩

end Descendants

/-- `s` is the proper snapshot of all that `childrenOf` leads to from
    `root`. -/
structure Captures (childrenOf : Handle → List Handle) (root : Handle) (s : Snapshot) : Prop where
  proper : s.Proper
  root_eq : s.root = some root
  reported : ∀ c p, s.parent c = some p → c ∈ childrenOf p
  closed : ∀ h, s.contains h = true → ∀ c ∈ childrenOf h, s.contains c = true

/-- A capture under way: a proper snapshot whose nodes are those that were
    expanded and those on the stack. The nodes on the stack have no children
    yet, and the children of the others are all captured. -/
structure Growing (childrenOf : Handle → List Handle) (root : Handle) (expanded stack : List Handle)
    (s : Snapshot) : Prop where
  proper : s.Proper
  root_eq : s.root = some root
  reported : ∀ c p, s.parent c = some p → c ∈ childrenOf p
  nodup : (expanded ++ stack).Nodup
  contains_iff : ∀ h, s.contains h = true ↔ h ∈ expanded ++ stack
  leaf : ∀ h ∈ stack, s.children h = []
  closed : ∀ h ∈ expanded, ∀ c ∈ childrenOf h, s.contains c = true

theorem mem_freshChildren (s : Snapshot) (reported : List Handle) (c : Handle) :
    c ∈ s.freshChildren reported ↔ c ∈ reported ∧ s.contains c = false := by
  rw [freshChildren, List.mem_filter, (Handle.ascending_spec reported).2,
    Bool.not_eq_eq_eq_not, Bool.not_true]

theorem ascending_freshChildren (s : Snapshot) (reported : List Handle) :
    Handle.Ascending (s.freshChildren reported) :=
  List.Pairwise.sublist List.filter_sublist (Handle.ascending_spec reported).1

section Adopt

variable (s : Snapshot) (node : Handle) (kids : List Handle)

theorem parent_adopt (x : Handle) :
    (s.adopt node kids).parent x = if x ∈ kids then some node else s.parent x := by
  have hfold : ∀ m : HandleMap Handle,
      (kids.foldl (fun m c => m.insert c node) m)[x]? = if x ∈ kids then some node else m[x]? := by
    induction kids with
    | nil => exact fun m => by simp only [List.foldl_nil, List.not_mem_nil, if_false]
    | cons c kids ih =>
        intro m
        rw [List.foldl_cons, ih, HandleMap.get_insert]
        by_cases hx : x ∈ kids
        · simp only [hx, if_true, List.mem_cons, or_true]
        · simp only [hx, if_false, List.mem_cons, or_false, eq_comm]
  exact hfold s.parents

theorem lists_adopt (x : Handle) :
    (s.adopt node kids).childLists[x]? =
      if node = x then some kids else if x ∈ kids then some [] else s.childLists[x]? := by
  have hfold : ∀ m : HandleMap (List Handle),
      (kids.foldl (fun m c => m.insert c []) m)[x]? = if x ∈ kids then some [] else m[x]? := by
    induction kids with
    | nil => exact fun m => by simp only [List.foldl_nil, List.not_mem_nil, if_false]
    | cons c kids ih =>
        intro m
        rw [List.foldl_cons, ih, HandleMap.get_insert]
        by_cases hx : x ∈ kids
        · simp only [hx, if_true, List.mem_cons, or_true]
        · simp only [hx, if_false, List.mem_cons, or_false, eq_comm]
  rw [adopt, HandleMap.get_insert, hfold]

theorem contains_adopt (x : Handle) :
    (s.adopt node kids).contains x = true ↔ x = node ∨ x ∈ kids ∨ s.contains x = true := by
  rw [contains, contains, HandleMap.contains_iff, HandleMap.contains_iff]
  simp only [lists_adopt]
  by_cases hn : node = x
  · simp only [hn, if_true, Option.some.injEq, exists_eq', true_or]
  · by_cases hx : x ∈ kids
    · simp only [hn, hx, if_true, if_false, Option.some.injEq, exists_eq', true_or, or_true]
    · simp only [hn, hx, if_false, Ne.symm hn, false_or]

theorem children_adopt (hnew : ∀ c ∈ kids, s.contains c = false) (x : Handle) :
    (s.adopt node kids).children x = if node = x then kids else s.children x := by
  rw [children, children, Forest.kids_eq, Forest.kids_eq, lists_adopt]
  by_cases hn : node = x
  · rw [if_pos hn, if_pos hn, Option.getD_some]
  · by_cases hx : x ∈ kids
    · -- A new node had no list before and has an empty one now.
      have hget : s.childLists[x]? = none := by
        cases hl : s.childLists[x]? with
        | none => rfl
        | some list =>
            have hc := (HandleMap.contains_iff s.childLists x).mpr ⟨list, hl⟩
            rw [← contains, hnew x hx] at hc
            exact absurd hc Bool.false_ne_true
      rw [if_neg hn, if_neg hn, if_pos hx, hget, Option.getD_some, Option.getD_none]
    · rw [if_neg hn, if_neg hn, if_neg hx]

/-- Giving new children to a node that has none leaves a proper snapshot. The
    new nodes were not captured before, so nothing was above or below them and
    every path to the root stays as it was. -/
theorem Proper.adopt (hs : s.Proper) (hnode : s.contains node = true)
    (hleaf : s.children node = []) (hasc : Handle.Ascending kids)
    (hnew : ∀ c ∈ kids, s.contains c = false) : (s.adopt node kids).Proper := by
  have hup := s.parent_adopt node kids
  have hch := s.children_adopt node kids hnew
  have hold : ∀ x, s.contains x = true → x ∉ kids := by
    intro x hx hm
    rw [hnew x hm] at hx
    exact Bool.false_ne_true hx
  -- Old links stay, because the adopted nodes had none.
  have hmono : ∀ x p, s.parent x = some p → (s.adopt node kids).parent x = some p := by
    intro x p hx
    rw [hup, if_neg (hold x (hs.contains_of_parent s x p hx).1), hx]
  have hchasc : ∀ x, Handle.Ascending ((s.adopt node kids).children x) := by
    intro x
    rw [hch]
    by_cases hn : node = x
    · rw [if_pos hn]
      exact hasc
    · rw [if_neg hn]
      exact hs.ascending x
  have hheld : ∀ x, Forest.Held s.root (s.adopt node kids).parent x ↔
      x ∈ kids ∨ Forest.Held s.root s.parent x := by
    intro x
    simp only [Forest.Held, hup]
    by_cases hx : x ∈ kids
    · simp only [hx, if_true, Option.some.injEq, exists_eq', or_true, true_or]
    · simp only [hx, if_false, false_or]
  refine ⟨⟨fun r hr => ?_, fun q c => ?_, fun q => (hchasc q).nodup, fun x q hx => ?_⟩, hchasc,
    fun x => ?_⟩
  · rw [hup, if_neg (hold r ((hs.contains_iff r).mpr (Or.inl hr))), hs.tree.root_up r hr]
  · rw [hch, hup]
    by_cases hn : node = q
    · -- The adopting node had no children, so its list is the adopted nodes.
      subst hn
      have hnone : s.parent c ≠ some node := by
        rw [Ne, ← hs.tree.mem_kids, hleaf]
        exact List.not_mem_nil
      rw [if_pos rfl]
      by_cases hc : c ∈ kids
      · simp only [hc, if_true]
      · simp only [hc, if_false, hnone]
    · rw [if_neg hn, hs.tree.mem_kids]
      by_cases hc : c ∈ kids
      · have hnone : s.parent c ≠ some q := fun hp =>
          hold c (hs.contains_of_parent s c q hp).1 hc
        simp only [hc, if_true, Option.some.injEq, hn, hnone]
      · rw [if_neg hc]
  · have hunder : ∀ y, Forest.Held s.root s.parent y →
        ∃ r, s.root = some r ∧ Under (s.adopt node kids).parent y r := by
      intro y hy
      rcases hs.tree.held_under_root y hy with ⟨r, hr, hu⟩
      exact ⟨r, hr, hu.mono hmono⟩
    by_cases hxk : x ∈ kids
    · rcases hunder node ((hs.contains_iff node).mp hnode) with ⟨r, hr, hu⟩
      refine ⟨r, hr, (Under.of_up ?_).trans hu⟩
      rw [hup, if_pos hxk]
    · rw [hup, if_neg hxk] at hx
      exact hunder x (Or.inr ⟨q, hx⟩)
  · rw [contains_adopt, show (s.adopt node kids).root = s.root from rfl, hheld, ← hs.contains_iff]
    refine ⟨fun hx => ?_, fun hx => Or.inr hx⟩
    rcases hx with rfl | hx
    · exact Or.inr hnode
    · exact hx

/-- Expanding the top of the stack with what is new below it keeps the
    invariant. -/
theorem Growing.adopt (childrenOf : Handle → List Handle) (root : Handle)
    (expanded rest : List Handle) (hg : Growing childrenOf root expanded (node :: rest) s)
    (hkids : kids = s.freshChildren (childrenOf node)) :
    Growing childrenOf root (expanded ++ [node]) (kids.reverse ++ rest) (s.adopt node kids) := by
  have hmem : ∀ c, c ∈ kids ↔ c ∈ childrenOf node ∧ s.contains c = false := by
    rw [hkids]
    exact s.mem_freshChildren (childrenOf node)
  have hasc : Handle.Ascending kids := hkids ▸ s.ascending_freshChildren (childrenOf node)
  have hnew : ∀ c ∈ kids, s.contains c = false := fun c hc => ((hmem c).mp hc).2
  have hnode : s.contains node = true :=
    (hg.contains_iff node).mpr (List.mem_append_right _ List.mem_cons_self)
  -- What is new is neither expanded nor on the stack.
  have hold : ∀ c ∈ kids, c ∉ expanded ++ node :: rest := by
    intro c hc hm
    rw [← hg.contains_iff, hnew c hc] at hm
    exact Bool.false_ne_true hm
  -- The node moves from the stack to the expanded ones, the rest only changes places.
  have hperm : (expanded ++ [node] ++ (kids.reverse ++ rest)).Perm
      (kids ++ (expanded ++ node :: rest)) := by
    have hcomm := List.perm_append_comm_assoc (expanded ++ [node]) kids.reverse rest
    have hsplit : expanded ++ [node] ++ rest = expanded ++ node :: rest := by
      rw [List.append_assoc, List.singleton_append]
    rw [hsplit] at hcomm
    exact hcomm.trans ((List.reverse_perm kids).append_right _)
  refine ⟨hg.proper.adopt s node kids hnode (hg.leaf node List.mem_cons_self) hasc hnew,
    hg.root_eq, fun c p hp => ?_, ?_, fun h => ?_, fun h hh => ?_, fun h hh c hc => ?_⟩
  · rw [parent_adopt] at hp
    by_cases hc : c ∈ kids
    · rw [if_pos hc, Option.some.injEq] at hp
      exact hp ▸ ((hmem c).mp hc).1
    · rw [if_neg hc] at hp
      exact hg.reported c p hp
  · rw [hperm.nodup_iff, List.nodup_append']
    exact ⟨hasc.nodup, hg.nodup, fun c hc hm => hold c hc hm⟩
  · rw [contains_adopt, hg.contains_iff, hperm.mem_iff, List.mem_append (s := kids)]
    refine ⟨fun hh => ?_, fun hh => Or.inr hh⟩
    rcases hh with rfl | hh
    · exact Or.inr (List.mem_append_right _ List.mem_cons_self)
    · exact hh
  · rw [children_adopt s node kids hnew]
    rw [List.mem_append, List.mem_reverse] at hh
    have hne : node ≠ h := by
      rintro rfl
      rcases hh with hh | hh
      · exact hold node hh (List.mem_append_right _ List.mem_cons_self)
      · exact (List.nodup_cons.mp (List.Nodup.of_append_right hg.nodup)).1 hh
    rw [if_neg hne]
    rcases hh with hh | hh
    · -- A new node is not even captured in `s`.
      cases hl : s.children h with
      | nil => rfl
      | cons c cs =>
          have hp := (hg.proper.tree.mem_kids h c).mp (hl ▸ List.mem_cons_self)
          have hc := (hg.proper.contains_of_parent s c h hp).2
          rw [hnew h hh] at hc
          exact absurd hc Bool.false_ne_true
    · exact hg.leaf h (List.mem_cons_of_mem node hh)
  · rw [contains_adopt]
    -- A child of the node that is not new was captured before.
    rcases List.mem_append.mp hh with hh | hh
    · exact Or.inr (Or.inr (hg.closed h hh c hc))
    · rw [List.mem_singleton] at hh
      subst hh
      cases hcc : s.contains c with
      | true => exact Or.inr (Or.inr rfl)
      | false => exact Or.inr (Or.inl ((hmem c).mpr ⟨hc, hcc⟩))

end Adopt

/-- The nodes of a stack are expanded, the top first, until none is left. Each of
    them is asked for its children when it is expanded, and `asked` lists these
    questions in order. Nothing cuts this short. -/
inductive Explores (childrenOf : Handle → List Handle) :
    List Handle → Snapshot → List Handle → Snapshot → Prop where
  /-- The stack is empty, and nothing more is asked. -/
  | done (s : Snapshot) : Explores childrenOf [] s [] s
  /-- The top is asked for its children, and the new ones go onto the stack. -/
  | ask (node : Handle) (rest asked : List Handle) (s t : Snapshot)
      (h : Explores childrenOf ((s.freshChildren (childrenOf node)).reverse ++ rest)
        (s.adopt node (s.freshChildren (childrenOf node))) asked t) :
      Explores childrenOf (node :: rest) s (node :: asked) t

/-- The bounded expansion is the complete one, with its questions, if it may expand
    as many nodes. -/
theorem grow_eq_of_explores (childrenOf : Handle → List Handle) (stack asked : List Handle)
    (s t : Snapshot) (h : Explores childrenOf stack s asked t) (bound : Nat)
    (hbound : asked.length ≤ bound) : grow childrenOf bound stack s = (asked, t) := by
  induction h generalizing bound with
  | done s => cases bound <;> rfl
  | ask node rest asked s t _ ih =>
      cases bound with
      | zero => exact absurd hbound (by rw [List.length_cons]; omega)
      | succ bound =>
          rw [List.length_cons] at hbound
          rw [grow, ih bound (by omega)]

/-- An expansion under way comes to its end. It may go on for as many nodes as
    there are handles that were not expanded, and when there are none left, the
    stack is empty. -/
theorem Growing.explores (childrenOf : Handle → List Handle) (root : Handle)
    (expanded stack : List Handle) (s : Snapshot)
    (hg : Growing childrenOf root expanded stack s) :
    ∃ asked t, Explores childrenOf stack s asked t ∧
      Growing childrenOf root (expanded ++ asked) [] t := by
  induction hleft : Text.wordBound - expanded.length generalizing expanded stack s with
  | zero =>
      have hlen := Handle.length_le_of_nodup _ hg.nodup
      rw [List.length_append] at hlen
      have hnil : stack = [] := List.length_eq_zero_iff.mp (by omega)
      subst hnil
      exact ⟨[], s, .done s, by rwa [List.append_nil]⟩
  | succ left ih =>
      cases stack with
      | nil => exact ⟨[], s, .done s, by rwa [List.append_nil]⟩
      | cons node rest =>
          have hg' := hg.adopt s node _ childrenOf root expanded rest rfl
          rcases ih (expanded ++ [node]) _ _ hg' (by
            rw [List.length_append, List.length_singleton]
            omega) with ⟨asked, t, hrun, hdone⟩
          rw [List.append_assoc, List.singleton_append] at hdone
          exact ⟨node :: asked, t, .ask node rest asked s t hrun, hdone⟩

theorem growing_single (childrenOf : Handle → List Handle) (root : Handle) :
    Growing childrenOf root [] [root] (single root) := by
  have hparent : ∀ h, (single root).parent h = none := by
    intro h
    simp only [single, parent, Std.ExtTreeMap.getElem?_empty]
  have hchildren : ∀ h, (single root).children h = [] := by
    intro h
    rw [single, children, Forest.kids_insert]
    split
    · rfl
    · simp only [Forest.kids, Std.ExtTreeMap.getD_empty]
  have hcontains : ∀ h, (single root).contains h = true ↔ h = root := by
    intro h
    rw [contains, HandleMap.contains_iff]
    simp only [single, HandleMap.get_insert, Std.ExtTreeMap.getElem?_empty]
    by_cases hh : root = h
    · simp only [hh, if_true, Option.some.injEq, exists_eq']
    · simp only [hh, Ne.symm hh, if_false, reduceCtorEq, exists_false]
  have hlist : ∀ q, Handle.Ascending ((single root).children q) := by
    intro q
    rw [hchildren]
    exact List.Pairwise.nil
  refine ⟨⟨⟨fun r _ => hparent r, fun q c => ?_, fun q => (hlist q).nodup, fun h p hp => ?_⟩,
    hlist, fun h => ?_⟩, rfl, fun c p hp => ?_, List.nodup_singleton root, fun h => ?_,
    fun h _ => hchildren h, fun h hh => absurd hh List.not_mem_nil⟩
  · simp only [hchildren, hparent, List.not_mem_nil, reduceCtorEq]
  · rw [hparent] at hp
    exact absurd hp (by simp only [reduceCtorEq, not_false_eq_true])
  · rw [hcontains, Forest.Held, hparent, single, Option.some.injEq]
    simp only [reduceCtorEq, exists_false, or_false, eq_comm]
  · rw [hparent] at hp
    exact absurd hp (by simp only [reduceCtorEq, not_false_eq_true])
  · rw [hcontains, List.nil_append, List.mem_singleton]

/-- A capture expands what it has captured until nothing is left on the stack, and
    asks the questions that are listed. -/
theorem explores_capture (childrenOf : Handle → List Handle) (root : Handle) :
    Explores childrenOf [root] (single root) (questions childrenOf root)
        (capture childrenOf root) ∧
      Growing childrenOf root (questions childrenOf root) [] (capture childrenOf root) := by
  rcases (growing_single childrenOf root).explores childrenOf root [] [root] _ with
    ⟨asked, t, hrun, hdone⟩
  rw [List.nil_append] at hdone
  have hnd := hdone.nodup
  rw [List.append_nil] at hnd
  have hexpansion : expansion childrenOf root = (asked, t) :=
    grow_eq_of_explores childrenOf [root] asked _ t hrun _ (Handle.length_le_of_nodup asked hnd)
  rw [questions, capture, hexpansion]
  exact ⟨hrun, hdone⟩

/-- A capture is proper and holds all that the child function leads to. -/
theorem captures_capture (childrenOf : Handle → List Handle) (root : Handle) :
    Captures childrenOf root (capture childrenOf root) := by
  have hg := (explores_capture childrenOf root).2
  refine ⟨hg.proper, hg.root_eq, hg.reported, fun h hh => ?_⟩
  rw [hg.contains_iff, List.append_nil] at hh
  exact hg.closed h hh

theorem proper_empty : empty.Proper := by
  have hparent : ∀ h, empty.parent h = none := by
    intro h
    simp only [empty, parent, Std.ExtTreeMap.getElem?_empty]
  have hchildren : ∀ h, empty.children h = [] := by
    intro h
    simp only [empty, children, Forest.kids, Std.ExtTreeMap.getD_empty]
  refine ⟨⟨fun r hr => ?_, fun p c => ?_, fun p => ?_, fun h p hp => ?_⟩, fun p => ?_, fun h => ?_⟩
  · exact hparent r
  · simp only [hchildren, hparent, List.not_mem_nil, reduceCtorEq]
  · rw [hchildren]
    exact List.nodup_nil
  · rw [hparent] at hp
    exact absurd hp (by simp only [reduceCtorEq, not_false_eq_true])
  · rw [hchildren]
    exact List.Pairwise.nil
  · rw [contains_empty, Forest.Held, hparent]
    simp only [empty, Bool.false_eq_true, reduceCtorEq, exists_false, or_self]

/-- The snapshots that the operations of this library make. -/
inductive Built : Snapshot → Prop where
  | empty : Built Snapshot.empty
  | capture (childrenOf : Handle → List Handle) (root : Handle) : Built (capture childrenOf root)
  | ofEdges (root : Handle) (edges : List (Handle × Handle)) : Built (ofEdges root edges)

/-- Every snapshot that can be built is proper. -/
theorem Built.proper (s : Snapshot) (hs : Built s) : s.Proper := by
  cases hs with
  | empty => exact proper_empty
  | capture childrenOf root => exact (captures_capture childrenOf root).proper
  | ofEdges root edges => exact (captures_capture _ root).proper

/-- The capture of the children of a tree has its parent links below the root
    of the capture, and no others. -/
theorem Captures.parent_eq (up : Handle → Option Handle) (kids : Handle → List Handle)
    (treeRoot : Option Handle) (t : Forest.IsTree treeRoot up kids) (root : Handle) (s : Snapshot)
    (hs : Captures kids root s) :
    (∀ h, s.contains h = true ↔ Under up h root) ∧
      ∀ h, s.parent h = if h ≠ root ∧ s.contains h = true then up h else none := by
  have hroot : s.contains root = true := (hs.proper.contains_iff root).mpr (Or.inl hs.root_eq)
  have hlink : ∀ c p, s.parent c = some p → up c = some p := fun c p hp =>
    (t.mem_kids p c).mp (hs.reported c p hp)
  have hcontains : ∀ h, s.contains h = true ↔ Under up h root := by
    intro h
    constructor
    · intro hh
      rcases hs.proper.tree.held_under_root h ((hs.proper.contains_iff h).mp hh) with ⟨r, hr, hu⟩
      rw [hs.root_eq, Option.some.injEq] at hr
      exact hr ▸ hu.mono hlink
    · intro hu
      induction hu using Relation.ReflTransGen.head_induction_on with
      | refl => exact hroot
      | @head c p hc _ ih => exact hs.closed p ih c ((t.mem_kids p c).mpr hc)
  refine ⟨hcontains, fun h => ?_⟩
  by_cases hh : h ≠ root ∧ s.contains h = true
  · rw [if_pos hh]
    rcases (hs.proper.contains_iff h).mp hh.2 with hr | ⟨p, hp⟩
    · rw [hs.root_eq, Option.some.injEq] at hr
      exact absurd hr.symm hh.1
    · rw [hp, hlink h p hp]
  · rw [if_neg hh]
    cases hp : s.parent h with
    | none => rfl
    | some p =>
        refine absurd ⟨?_, (hs.proper.contains_of_parent s h p hp).1⟩ hh
        rintro rfl
        exact hs.proper.tree.root_ne h p hp hs.root_eq

end Snapshot

namespace Source

theorem proper_snapshot (s : Source) : s.snapshot.Proper := by
  unfold snapshot
  cases s.root with
  | none => exact Snapshot.proper_empty
  | some root => exact (Snapshot.captures_capture s.children root).proper

theorem proper_subtree (s : Source) (node : Handle) : (s.subtree node).Proper := by
  unfold subtree
  split
  · exact (Snapshot.captures_capture s.children node).proper
  · exact Snapshot.proper_empty

end Source

end TreeWatch
