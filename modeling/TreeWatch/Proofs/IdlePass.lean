import TreeWatch.Proofs.Charts
import TreeWatch.Proofs.Handling

/-!
# Idle Passes

A full pass over a record that holds exactly the snapshot does nothing: it
announces nothing, reports nothing, and does not even look up a row. The first
sweep finds no dead row, the second one finds every child in its row, and
nothing is left over behind the last one. So a second pass is empty, and a
pass that reports nothing is a test of whether a record is up to date.

A second pass does not see the tree as it was reported but as it was captured. In
between a source may list the same children in another order, and the capture is
the same (`Snapshot.Alike`).

## Main definitions

* `Snapshot.Alike`: Snapshots of reports that differ in their order only.

## Theorems

* `Pass.removeDead_idle`: The first sweep, if all that is tracked is live.
* `Pass.mergeChildren_idle`: The merge of two equal lists.
* `Pass.diffNode_idle`: The second sweep.
* `Pass.run_idle`: The whole pass.
* `Pass.run_again`: A second pass.
* `Tracker.reconcile_idle`: The pass of a tracker.
-/

namespace TreeWatch

/-- Without an entry that satisfies the test there is no run. -/
theorem runsWhere_eq_nil {α : Type} (p : α → Bool) (row : Nat) (xs : List α)
    (hno : ∀ x ∈ xs, p x = false) : runsWhere p row xs = [] := by
  rcases runsWhere_cases p row xs with ⟨hnil, _⟩ | ⟨as, ys, zs, hxs, hne, _, hys, _⟩
  · exact hnil
  · rcases List.exists_mem_of_ne_nil ys hne with ⟨y, hy⟩
    have hmem : y ∈ xs := by
      rw [hxs]
      exact List.mem_append_left zs (List.mem_append_right as hy)
    exact absurd ((hno y hmem).symm.trans (hys y hy)) Bool.false_ne_true

namespace Pass

-- A sequence of moves none of which does anything.
theorem foldlM_idle {α σ : Type} (f : σ → α → Except Fault σ) (s : σ) (xs : List α)
    (hidle : ∀ x ∈ xs, f s x = .ok s) : xs.foldlM f s = .ok s := by
  induction xs with
  | nil => rfl
  | cons x xs ih =>
      rw [List.foldlM_cons, hidle x List.mem_cons_self]
      exact ih fun y hy => hidle y (List.mem_cons_of_mem x hy)

section Sweeps

variable (live : Snapshot) (s : Step)

/-- The first sweep does nothing if all that is tracked is live. -/
theorem removeDead_idle (hlive : ∀ p, ∀ c ∈ s.store.children p, live.contains c = true)
    (depth : Nat) (node : Handle) : removeDead live depth node s = .ok s := by
  induction depth generalizing node with
  | zero => rfl
  | succ depth ih =>
      have hruns : runsWhere (fun c => !live.contains c) 0 (s.store.children node) = [] := by
        refine runsWhere_eq_nil _ 0 _ fun c hc => ?_
        rw [hlive node c hc, Bool.not_true]
      have hkids := foldlM_idle (fun s c => removeDead live depth c s) s
        ((s.store.children node).filter live.contains) fun c _ => ih c
      simp only [removeDead, hkids, bind, Except.bind, hruns, List.reverse_nil, List.foldlM_nil,
        pure, Except.pure]

/-- The merge finds each child in its row if the lists are equal from there
    on. -/
theorem mergeChildren_idle (descend : Handle → Step → Except Fault Step) (node : Handle)
    (hdescend : ∀ c ∈ s.store.children node, descend c s = .ok s) (wanted : List Handle) :
    ∀ front, s.store.children node = front ++ wanted →
      mergeChildren descend live node wanted.length wanted front.length s =
        .ok ((s.store.children node).length, s) := by
  induction wanted with
  | nil =>
      intro front hkids
      rw [hkids, List.append_nil]
      rfl
  | cons h rest ih =>
      intro front hkids
      -- No row in front of `h` is passed over, since the next row is `h`.
      have hpassed : ((s.store.children node).drop front.length).takeWhile (· < h) = [] := by
        rw [hkids, List.drop_left, List.takeWhile_cons, if_neg]
        simp only [lt_self_iff_false, decide_false, Bool.false_eq_true, not_false_eq_true]
      have hrow : (s.store.children node)[front.length]? = some h := by
        rw [hkids, List.getElem?_append_right (Nat.le_refl _), Nat.sub_self]
        rfl
      have hnext := ih (front ++ [h]) (by rw [hkids, List.append_assoc, List.singleton_append])
      have hh := hdescend h (hkids ▸ List.mem_append_right front List.mem_cons_self)
      rw [List.length_append, List.length_singleton] at hnext
      rw [List.length_cons]
      simp only [mergeChildren, hpassed, List.isEmpty_nil, if_true, bind, Except.bind, hrow, hh]
      exact hnext

/-- The second sweep does nothing if all child lists are equal. -/
theorem diffNode_idle (isStrict : Bool) (hkids : ∀ p, s.store.children p = live.children p)
    (depth : Nat) (node : Handle) : diffNode isStrict live depth node s = .ok s := by
  induction depth generalizing node with
  | zero => rfl
  | succ depth ih =>
      have hmerge := mergeChildren_idle live s (diffNode isStrict live depth) node
        (fun c _ => ih c) (live.children node) [] (hkids node)
      rw [List.length_nil] at hmerge
      simp only [diffNode, hmerge, bind, Except.bind, Nat.lt_irrefl, if_false, settle, hkids node,
        if_true, pure, Except.pure]

end Sweeps

/-- A pass over a record that holds exactly the snapshot does nothing. -/
theorem run_idle (isStrict : Bool) (live : Snapshot) (hlive : live.Proper) (s : Step)
    (ha : s.store.Agrees live) : run isStrict live s = .ok s := by
  have hcontains : ∀ p, ∀ c ∈ s.store.children p, live.contains c = true := by
    intro p c hc
    rw [ha.children, hlive.tree.mem_kids] at hc
    exact (hlive.contains_of_parent live c p hc).1
  unfold run
  rw [ha.root]
  cases live.root with
  | none => rfl
  | some root =>
      simp only [ne_eq, not_true_eq_false, if_false, removeDead_idle live s hcontains, bind,
        Except.bind, diffNode_idle live s isStrict ha.children]

end Pass

/-- Two snapshots of the same tree: one and the same, or captures of reports in which
    every node has the same children, in any order and any number of times. -/
inductive Snapshot.Alike : Snapshot → Snapshot → Prop where
  | same (t : Snapshot) (ht : t.Built) : Alike t t
  | capture (childrenOf childrenOf' : Handle → List Handle) (root : Handle)
    (hsame : ∀ p c, c ∈ childrenOf' p ↔ c ∈ childrenOf p) :
    Alike (Snapshot.capture childrenOf root) (Snapshot.capture childrenOf' root)
  | ofEdges (root : Handle) (edges edges' : List (Handle × Handle))
    (hsame : ∀ e, e ∈ edges' ↔ e ∈ edges) :
    Alike (Snapshot.ofEdges root edges) (Snapshot.ofEdges root edges')

-- Where every node has the same children, the same tree is captured.
theorem Snapshot.Alike.built_and_eq (first second : Snapshot) (h : first.Alike second) :
    first.Built ∧ second = first := by
  cases h with
  | same _ ht => exact ⟨ht, rfl⟩
  | capture childrenOf childrenOf' root hsame =>
      exact ⟨.capture childrenOf root, capture_congr _ _ root fun p _ => hsame p⟩
  | ofEdges root edges edges' hsame =>
      refine ⟨.ofEdges root edges, capture_congr _ _ root fun p _ c => ?_⟩
      rw [mem_kids_edgeTable, mem_kids_edgeTable, hsame]

namespace Pass

/-- A second pass over the same tree does nothing, whatever the first one did and in
    whatever order the children are reported now. Within any step it leaves the
    record, the report, the remembered rows, the count of lookups and the trace as
    they are. -/
theorem run_again (s : Store) (hs : s.check = none) (first second : Snapshot)
    (hsame : first.Alike second) (isStrict isStrict' : Bool) :
    ∃ m, run isStrict first { store := s } = .ok m ∧
      ∀ report rows lookups trace,
        run isStrict' second ⟨m.store, report, rows, lookups, trace⟩ =
          .ok ⟨m.store, report, rows, lookups, trace⟩ := by
  rcases hsame.built_and_eq first second with ⟨hbuilt, rfl⟩
  rcases run_exact s hs second hbuilt with ⟨m, hrun, _, hagrees, _⟩
  refine ⟨m, hrun isStrict, fun report rows lookups trace => ?_⟩
  exact run_idle isStrict' second (hbuilt.proper second) _ hagrees

-- The first pass exchanges parent and child, the second one is told of the new
-- children in another order.
theorem run_again_of_reordered :
    threeInARow.check = none ∧
      (Snapshot.ofEdges ⟨1⟩ [(⟨1⟩, ⟨3⟩), (⟨3⟩, ⟨2⟩), (⟨3⟩, ⟨4⟩)]).Alike
        (.ofEdges ⟨1⟩ [(⟨3⟩, ⟨4⟩), (⟨3⟩, ⟨2⟩), (⟨1⟩, ⟨3⟩)]) ∧
      ∃ m, run true (.ofEdges ⟨1⟩ [(⟨1⟩, ⟨3⟩), (⟨3⟩, ⟨2⟩), (⟨3⟩, ⟨4⟩)]) { store := threeInARow } =
          .ok m ∧
        ∀ report rows lookups trace,
          run false (.ofEdges ⟨1⟩ [(⟨3⟩, ⟨4⟩), (⟨3⟩, ⟨2⟩), (⟨1⟩, ⟨3⟩)])
              ⟨m.store, report, rows, lookups, trace⟩ =
            .ok ⟨m.store, report, rows, lookups, trace⟩ := by
  have hsame : (Snapshot.ofEdges ⟨1⟩ [(⟨1⟩, ⟨3⟩), (⟨3⟩, ⟨2⟩), (⟨3⟩, ⟨4⟩)]).Alike
      (.ofEdges ⟨1⟩ [(⟨3⟩, ⟨4⟩), (⟨3⟩, ⟨2⟩), (⟨1⟩, ⟨3⟩)]) := by
    refine .ofEdges ⟨1⟩ _ _ fun e => ?_
    simp only [List.mem_cons, List.not_mem_nil, or_false]
    tauto
  exact ⟨by decide +kernel, hsame,
    run_again threeInARow (by decide +kernel) _ _ hsame true false⟩

end Pass

/-- The pass of a tracker whose record holds exactly the snapshot of the source
    reports nothing and announces nothing. -/
theorem Tracker.reconcile_idle (t : Tracker) (source : Source)
    (ha : t.store.Agrees source.snapshot) :
    ∃ o, t.reconcile source = .ok o ∧ o.value = {} ∧ o.trace = [] ∧
      o.tracker.store = t.store := by
  unfold Tracker.reconcile
  rw [Pass.run_idle t.settings.isStrict source.snapshot source.proper_snapshot _ ha]
  exact ⟨_, rfl, rfl, rfl, (writeReport_keeps _ _ _ _ _).1⟩

end TreeWatch
