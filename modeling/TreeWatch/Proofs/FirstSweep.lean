import TreeWatch.Pass
import TreeWatch.Proofs.Acts

/-!
# The First Sweep

The first sweep of a full pass takes out the tracked nodes that are not live,
each with all below it, and nothing else (`removeDead_spec`). It needs as many
levels as there are nodes below the node it starts from, since every level
leads to a child, which has fewer nodes under it.

The dead children of a node go in maximal runs of rows, the last run first, so
that the rows of the runs before it keep their numbers. `runsWhere_cases` says
what the first run of a list is and where the others are found, so that an
induction can follow the runs from the back. The rows are those of the record
before the sweep (`Pass.deadRows`), because what goes away below one node does
not change the rows under another.

## Main definitions

* `Maximal`: A maximal run of entries that satisfy a test.
* `Pass.deadRows`: The rows that the sweep removes, in order.
* `Pass.Dead`: What the sweep below a node takes out.
* `Pass.Culls`: What a sweep of some depth does.

## Theorems

* `runsWhere_cases`: The first maximal run of a list, and the other runs.
* `runsWhere_induction`: An induction over the runs of a list.
* `Pass.removeRuns_spec`: Removing all runs removes the rows that satisfy the
  test.
* `Pass.removeDead_spec`: The sweep takes out exactly what is dead.
-/

namespace TreeWatch

open Forest (Under under_iff_up)

/-- Either no entry satisfies the test, or the first maximal run is a part of
    the list, the entries before it and the one behind it do not satisfy the
    test, and the other runs are those of the entries behind it. -/
theorem runsWhere_cases {α : Type} (p : α → Bool) (row : Nat) (xs : List α) :
    (runsWhere p row xs = [] ∧ ∀ x ∈ xs, p x = false) ∨
      ∃ as ys zs, xs = as ++ ys ++ zs ∧ ys ≠ [] ∧ (∀ a ∈ as, p a = false) ∧ (∀ y ∈ ys, p y = true) ∧
        (∀ z ∈ zs.head?, p z = false) ∧
        runsWhere p row xs = (row + as.length, row + as.length + ys.length - 1) ::
          runsWhere p (row + (as ++ ys).length) zs := by
  induction xs generalizing row with
  | nil => exact Or.inl ⟨rfl, fun x hx => absurd hx List.not_mem_nil⟩
  | cons x xs ih =>
      rw [runsWhere]
      cases hx : p x with
      | false =>
          rw [if_neg Bool.false_ne_true]
          rcases ih (row + 1) with ⟨hnil, hno⟩ | ⟨as, ys, zs, hxs, hne, has, hys, hzs, hruns⟩
          · refine Or.inl ⟨hnil, fun y hy => ?_⟩
            rcases List.mem_cons.mp hy with rfl | hy
            · exact hx
            · exact hno y hy
          · refine Or.inr ⟨x :: as, ys, zs, ?_, hne, fun a ha => ?_, hys, hzs, ?_⟩
            · rw [hxs, List.cons_append, List.cons_append]
            · rcases List.mem_cons.mp ha with rfl | ha
              · exact hx
              · exact has a ha
            · simp only [hruns, List.length_cons, List.cons_append, Nat.add_assoc, Nat.add_comm 1]
      | true =>
          rw [if_pos rfl]
          rcases ih (row + 1) with ⟨hnil, hno⟩ | ⟨as, ys, zs, hxs, hne, has, hys, hzs, hruns⟩
          · refine Or.inr ⟨[], [x], xs, rfl, List.cons_ne_nil x [], fun a ha => ?_, ?_,
              fun z hz => hno z (List.mem_of_mem_head? hz), ?_⟩
            · exact absurd ha List.not_mem_nil
            · simp only [List.mem_singleton, forall_eq, hx]
            · rw [hnil]
              simp only [List.length_nil, List.length_singleton, Nat.add_zero, Nat.add_sub_cancel,
                List.nil_append, hnil]
          · rw [hruns]
            cases as with
            | nil =>
                -- The run of the rest starts right behind `x` and takes it in.
                have hpos : 0 < ys.length := List.length_pos_iff.mpr hne
                simp only [List.length_nil, Nat.add_zero, if_true]
                refine Or.inr ⟨[], x :: ys, zs, ?_, List.cons_ne_nil x ys, fun a ha => ?_,
                  fun y hy => ?_, hzs, ?_⟩
                · rw [hxs, List.nil_append, List.nil_append, List.cons_append]
                · exact absurd ha List.not_mem_nil
                · rcases List.mem_cons.mp hy with rfl | hy
                  · exact hx
                  · exact hys y hy
                · simp only [List.length_nil, List.length_cons, List.nil_append, Nat.add_zero,
                    Nat.add_assoc, Nat.add_comm 1]
            | cons a as =>
                have hgap : row + 1 + (a :: as).length ≠ row + 1 := by
                  rw [List.length_cons]
                  omega
                simp only [hgap, if_false]
                refine Or.inr ⟨[], [x], xs, rfl, List.cons_ne_nil x [], fun b hb => ?_, ?_,
                  fun z hz => ?_, ?_⟩
                · exact absurd hb List.not_mem_nil
                · simp only [List.mem_singleton, forall_eq, hx]
                · rw [hxs, List.cons_append, List.cons_append, List.head?_cons] at hz
                  exact has z (Option.some.inj hz ▸ List.mem_cons_self)
                · simp only [List.length_nil, List.length_singleton, Nat.add_zero,
                    Nat.add_sub_cancel, List.nil_append, hruns]

/-- A run of entries of a list that satisfy a test, between neighbours that do
    not. -/
structure Maximal {α : Type} (p : α → Bool) (xs front rows back : List α) : Prop where
  split : xs = front ++ rows ++ back
  nonempty : rows ≠ []
  inside : ∀ y ∈ rows, p y = true
  before : ∀ x ∈ front.getLast?, p x = false
  behind : ∀ x ∈ back.head?, p x = false

/-- An induction over the runs of a list, from the last one to the first. -/
theorem runsWhere_induction {α : Type} (p : α → Bool)
    {motive : Nat → List α → List (Nat × Nat) → Prop}
    (none : ∀ row xs, (∀ x ∈ xs, p x = false) → motive row xs [])
    (first : ∀ row as ys zs runs, Maximal p (as ++ ys ++ zs) as ys zs →
      (∀ a ∈ as, p a = false) → motive (row + (as ++ ys).length) zs runs →
      motive row (as ++ ys ++ zs) ((row + as.length, row + as.length + ys.length - 1) :: runs))
    (row : Nat) (xs : List α) : motive row xs (runsWhere p row xs) := by
  induction hlen : xs.length using Nat.strong_induction_on generalizing row xs with
  | _ n ih =>
      rcases runsWhere_cases p row xs with
        ⟨hnil, hno⟩ | ⟨as, ys, zs, rfl, hne, has, hys, hzs, hruns⟩
      · exact hnil ▸ none row xs hno
      · have hpos : 0 < ys.length := List.length_pos_iff.mpr hne
        have hshort : zs.length < n := by
          rw [← hlen, List.length_append, List.length_append]
          omega
        rw [hruns]
        exact first row as ys zs _ ⟨rfl, hne, hys, fun x hx => has x (List.mem_of_getLast? hx), hzs⟩
          has (ih zs.length hshort _ zs rfl)

/-- The rows of a node from the first to the last one of a run. -/
def RowRun.ofRows (node : Handle) (kids : List Handle) (run : Nat × Nat) : RowRun :=
  ⟨node, run.1, (kids.drop run.1).take (run.2 + 1 - run.1)⟩

-- The rows that make a part of the children are that part.
theorem RowRun.ofRows_eq (node : Handle) (front rows back : List Handle) (hne : rows ≠ []) :
    ofRows node (front ++ rows ++ back) (front.length, front.length + rows.length - 1) =
      ⟨node, front.length, rows⟩ := by
  have hpos : 0 < rows.length := List.length_pos_iff.mpr hne
  have hlen : front.length + rows.length - 1 + 1 - front.length = rows.length := by omega
  rw [ofRows, hlen, List.append_assoc, List.drop_left, List.take_left]

namespace Pass

/-- The rows that the sweep below `node` removes, at most `depth` levels deep, in the
    order in which they go. -/
def deadRows (live : Snapshot) (children : Handle → List Handle) : Nat → Handle → List RowRun
  | 0, _ => []
  | depth + 1, node =>
    ((children node).filter live.contains).flatMap (deadRows live children depth) ++
      (runsWhere (fun c => !live.contains c) 0 (children node)).reverse.map
        (RowRun.ofRows node (children node))

/-- A node in place is not under a recorded one that is not live. -/
theorem Placed.not_under_dead (live : Snapshot) (hlive : live.Proper) (s : Store) (y v p : Handle)
    (hy : Placed live s y) (hv : s.parent v = some p) (hdead : live.contains v = false) :
    ¬ Under s.parent y v := by
  intro hu
  have hvp := Placed.above live s y v hy ((hy.under_iff live s y v).mp hu) v (Under.refl v)
  rw [(hlive.contains_of_parent live v p (hvp.symm.trans hv)).1] at hdead
  exact Bool.false_ne_true hdead.symm

/-- Removing the runs of rows that satisfy a test, the last run first, removes
    the rows that satisfy it. No live node does. -/
theorem removeRuns_spec (live : Snapshot) (hlive : live.Proper) (p : Handle → Bool)
    (hp : ∀ v, p v = true → live.contains v = false) (node : Handle) (front rows : List Handle)
    (s : Step) (hs : s.store.Sound) (hn : s.store.contains node = true)
    (hkids : s.store.children node = front ++ rows) :
    ∃ s', (runsWhere p front.length rows).reverse.foldlM
        (fun s run => s.removeRows live.contains node run.1 run.2) s = .ok s' ∧ Works live s s' ∧
      (s.store.Cuts s'.store fun x => ∃ v ∈ rows, p v = true ∧ Under s.store.parent x v) ∧
      Took s s' ((runsWhere p front.length rows).reverse.map
        (RowRun.ofRows node (front ++ rows))) := by
  generalize hrow : front.length = row
  induction row, rows using runsWhere_induction p generalizing front with
  | none row rows hno =>
      refine ⟨s, rfl, Works.refl live s hs, (Store.Cuts.refl s.store hs).congr_gone fun x => ?_,
        Took.nil s⟩
      rw [iff_false]
      rintro ⟨v, hv, hpv, _⟩
      exact Bool.false_ne_true ((hno v hv).symm.trans hpv)
  | first row as ys zs runs hfirst has ih =>
      subst hrow
      have hkids' : s.store.children node = (front ++ (as ++ ys)) ++ zs := by
        simp only [hkids, List.append_assoc]
      -- The runs behind the first one go first.
      rcases ih (front ++ (as ++ ys)) hkids' List.length_append with
        ⟨s₁, hrun, hworks, hcut, htook⟩
      have hparent : ∀ v ∈ zs.filter p, s.store.parent v = some node := by
        intro v hv
        rw [← hs.tree.mem_kids, hkids']
        exact List.mem_append_right _ (List.mem_of_mem_filter hv)
      have hcut₁ : s.store.Cuts s₁.store fun x =>
          ∃ v ∈ zs.filter p, Under s.store.parent x v := by
        refine hcut.congr_gone fun x => exists_congr fun v => ?_
        rw [List.mem_filter, and_assoc]
      have hn₁ : s₁.store.contains node = true :=
        (hcut₁.contains_iff node).mpr ⟨hn, hs.parent_not_under_rows _ node _ hparent⟩
      have hnd := hs.tree.nodup node
      rw [hkids'] at hnd
      -- What is in front of the removed rows is not below any of them.
      have hstay : ∀ x ∈ front ++ (as ++ ys), ¬ ∃ v ∈ zs.filter p, Under s.store.parent x v := by
        intro x hx hg
        have hxz := (hs.under_rows_iff _ node _ hparent x
          (hkids' ▸ List.mem_append_left zs hx)).mp hg
        exact List.disjoint_of_nodup_append hnd hx (List.mem_of_mem_filter hxz)
      rcases hcut₁.children_prefix hs node _ zs hkids' hstay with ⟨back, hback⟩
      have hrows₁ : s₁.store.children node = (front ++ as) ++ ys ++ back := by
        simp only [hback, List.append_assoc]
      have hspare : Spare live s₁.store node (front ++ as) ys back := by
        refine ⟨hcut.sound, hn₁, hfirst.nonempty, hrows₁, fun y hy hg => ?_⟩
        rcases hg with ⟨v, hv, hu⟩
        refine hy.not_under_dead live hlive s₁.store y v node ?_ (hp v (hfirst.inside v hv)) hu
        rw [← hcut.sound.tree.mem_kids, hrows₁]
        exact List.mem_append_left _ (List.mem_append_right _ hv)
      rcases hspare.removeRows live s₁ node (front ++ as) ys back with
        ⟨s₂, hrem, hworks₂, hcut₂, htook₂⟩
      refine ⟨s₂, ?_, hworks.trans live _ _ _ hworks₂, (hcut₁.trans hcut₂).congr_gone fun x => ?_,
        ?_⟩
      · rw [List.length_append] at hrem
        rw [List.reverse_cons, List.foldlM_append, hrun]
        simp only [bind, Except.bind, List.foldlM_cons, List.foldlM_nil, hrem, pure, Except.pure]
      · by_cases hx : ∃ v ∈ zs.filter p, Under s.store.parent x v
        · simp only [hx, true_or, iff_true]
          rcases hx with ⟨v, hv, hu⟩
          rw [List.mem_filter] at hv
          exact ⟨v, List.mem_append_right _ hv.1, hv.2, hu⟩
        · simp only [hx, false_or, hcut₁.links.under_iff x _ hx]
          constructor
          · rintro ⟨v, hv, hpv, hu⟩
            rcases List.mem_append.mp hv with hv | hv
            · rcases List.mem_append.mp hv with hv | hv
              · rw [has v hv] at hpv
                exact absurd hpv Bool.false_ne_true
              · exact ⟨v, hv, hu⟩
            · exact absurd ⟨v, List.mem_filter.mpr ⟨hv, hpv⟩, hu⟩ hx
          · rintro ⟨v, hv, hu⟩
            exact ⟨v, List.mem_append_left _ (List.mem_append_right _ hv), hfirst.inside v hv, hu⟩
      · have hrun₁ := RowRun.ofRows_eq node (front ++ as) ys zs hfirst.nonempty
        have hall : front ++ (as ++ ys ++ zs) = front ++ as ++ ys ++ zs := by
          simp only [List.append_assoc]
        rw [← hkids', hkids, hall] at htook
        rw [List.length_append] at hrun₁ htook₂
        rw [List.reverse_cons, List.map_append, List.map_singleton, hall, hrun₁]
        exact htook.append s s₁ s₂ _ _ htook₂

/-- The nodes that the sweep below `node` takes out: those with a node that is
    not live on their way to `node`. -/
def Dead (live : Snapshot) (s : Store) (node x : Handle) : Prop :=
  ∃ v, v ≠ node ∧ Under s.parent v node ∧ live.contains v = false ∧ Under s.parent x v

section Sweep

variable (live : Snapshot) (s : Store) (hs : s.Sound)

include hs

-- What is dead below a child does not include the siblings of the child.
theorem sibling_not_dead (c d p : Handle) (hc : s.parent c = some p) (hd : s.parent d = some p) :
    ¬ Dead live s c d := by
  rintro ⟨v, hvc, hu, _, hdv⟩
  by_cases hcd : c = d
  · subst hcd
    exact hvc (hs.tree.under_antisymm v c hu hdv)
  · exact hs.tree.sibling_not_under p d c ((hs.tree.mem_kids p d).mpr hd)
      ((hs.tree.mem_kids p c).mpr hc) (Ne.symm hcd) (hdv.trans hu)

omit hs in
/-- Cutting what is dead below one node leaves what is dead below another. -/
theorem dead_after_cut (t : Store) (c d x : Handle) (hcut : s.Cuts t (Dead live s c))
    (hx : ¬ Dead live s c x) : Dead live t d x ↔ Dead live s d x := by
  refine exists_congr fun v => and_congr_right fun _ => ?_
  rw [hcut.links.under_iff x v hx]
  by_cases hxv : Under s.parent x v
  · have hv : ¬ Dead live s c v := by
      rintro ⟨w, hw, hwc, hdead, hvw⟩
      exact hx ⟨w, hw, hwc, hdead, hxv.trans hvw⟩
    rw [hcut.links.under_iff v d hv]
  · simp only [hxv, and_false]

/-- What is dead below a node is dead below a live child, or is below a child
    that is not live. -/
theorem dead_iff_kid (node x : Handle) :
    Dead live s node x ↔
      (∃ c ∈ (s.children node).filter live.contains, Dead live s c x) ∨
        ∃ c ∈ s.children node, live.contains c = false ∧ Under s.parent x c := by
  constructor
  · rintro ⟨v, hv, hvn, hdead, hxv⟩
    rcases (hs.tree.under_iff_kid v node).mp hvn with he | ⟨c, hc, hvc⟩
    · exact absurd he hv
    · cases hlc : live.contains c with
      | false => exact Or.inr ⟨c, hc, hlc, hxv.trans hvc⟩
      | true =>
          refine Or.inl ⟨c, List.mem_filter.mpr ⟨hc, hlc⟩, v, ?_, hvc, hdead, hxv⟩
          rintro rfl
          rw [hdead] at hlc
          exact Bool.false_ne_true hlc
  · rintro (⟨c, hc, v, hv, hvc, hdead, hxv⟩ | ⟨c, hc, hdead, hxc⟩)
    · have hcn := (hs.tree.mem_kids node c).mp (List.mem_of_mem_filter hc)
      refine ⟨v, ?_, hvc.trans (Under.of_up hcn), hdead, hxv⟩
      rintro rfl
      exact hs.tree.acyclic c v hcn hvc
    · have hcn := (hs.tree.mem_kids node c).mp hc
      refine ⟨c, ?_, Under.of_up hcn, hdead, hxc⟩
      rintro rfl
      exact hs.tree.acyclic c c hcn (Under.refl c)

end Sweep

/-- The dead rows below a node are found in the lists of children under it. -/
theorem deadRows_congr (live : Snapshot) (s t : Store) (hs : s.Sound) (depth : Nat) (node : Handle)
    (hkids : ∀ x, Under s.parent x node → t.children x = s.children x) :
    deadRows live t.children depth node = deadRows live s.children depth node := by
  induction depth generalizing node with
  | zero => rfl
  | succ depth ih =>
      rw [deadRows, deadRows, hkids node (Under.refl node)]
      refine congrArg (· ++ _) (List.flatMap_congr fun c hc => ih c fun x hx => ?_)
      have hcn := (hs.tree.mem_kids node c).mp (List.mem_of_mem_filter hc)
      exact hkids x (hx.trans (Under.of_up hcn))

/-- Cutting what is dead below one node leaves the rows under its siblings. -/
theorem children_after_cut (live : Snapshot) (s t : Store) (hs : s.Sound) (c d p x : Handle)
    (hc : s.parent c = some p) (hd : s.parent d = some p) (hne : c ≠ d)
    (hcut : s.Cuts t (Dead live s c)) (hx : Under s.parent x d) : t.children x = s.children x := by
  refine hcut.sound.children_ext _ _ hs x x fun y => ?_
  rw [← hcut.sound.tree.mem_kids, ← hs.tree.mem_kids, hcut.mem_children_iff hs]
  refine and_iff_left_of_imp fun hy hdead => ?_
  rcases hdead with ⟨v, _, hvc, _, hyv⟩
  -- A child of `x` would be under both siblings.
  have hyd := (Under.of_up ((hs.tree.mem_kids x y).mp hy)).trans hx
  exact hs.tree.siblings_apart c d p y hc hd hne (hyv.trans hvc) hyd

/-- A sweep of this depth takes out exactly what is dead below each node that
    has no more nodes under it, row by row. -/
def Culls (live : Snapshot) (depth : Nat) : Prop :=
  ∀ (node : Handle) (s : Step), s.store.Sound → s.store.contains node = true →
    Forest.weight s.store.parent node ≤ depth →
    ∃ s', removeDead live depth node s = .ok s' ∧ Works live s s' ∧
      s.store.Cuts s'.store (Dead live s.store node) ∧
      Took s s' (deadRows live s.store.children depth node)

/-- The sweeps below some children of a node, one after the other, each in the
    record that those before it have left. -/
theorem Culls.siblings (live : Snapshot) (depth : Nat) (h : Culls live depth) (node : Handle)
    (cs : List Handle) (s : Step) (hs : s.store.Sound)
    (hparent : ∀ c ∈ cs, s.store.parent c = some node)
    (hweight : ∀ c ∈ cs, Forest.weight s.store.parent c ≤ depth) (hnd : cs.Nodup) :
    ∃ s', cs.foldlM (fun s c => removeDead live depth c s) s = .ok s' ∧ Works live s s' ∧
      (s.store.Cuts s'.store fun x => ∃ c ∈ cs, Dead live s.store c x) ∧
      Took s s' (cs.flatMap (deadRows live s.store.children depth)) := by
  induction cs generalizing s with
  | nil =>
      refine ⟨s, rfl, Works.refl live s hs, (Store.Cuts.refl s.store hs).congr_gone fun x => ?_,
        Took.nil s⟩
      simp only [List.not_mem_nil, false_and, exists_false]
  | cons c cs ih =>
      have hcp := hparent c List.mem_cons_self
      rcases h c s hs ((s.store.contains_iff c).mpr (Or.inr ⟨node, hcp⟩))
        (hweight c List.mem_cons_self) with ⟨s₁, hrun₁, hworks₁, hcut₁, htook₁⟩
      rcases List.nodup_cons.mp hnd with ⟨hout, hnd'⟩
      have hparent₁ : ∀ d ∈ cs, s₁.store.parent d = some node := by
        intro d hd
        have hdp := hparent d (List.mem_cons_of_mem c hd)
        rw [hcut₁.links.kept d (sibling_not_dead live s.store hs c d node hcp hdp), hdp]
      have hweight₁ : ∀ d ∈ cs, Forest.weight s₁.store.parent d ≤ depth := by
        intro d hd
        have hmono := Forest.weight_mono s.store.parent s₁.store.parent d
          fun x p hx => (hcut₁.links.up_of_up x p hx).1
        exact hmono.trans (hweight d (List.mem_cons_of_mem c hd))
      rcases ih s₁ hworks₁.sound hparent₁ hweight₁ hnd' with
        ⟨s₂, hrun₂, hworks₂, hcut₂, htook₂⟩
      have hrest : cs.flatMap (deadRows live s₁.store.children depth) =
          cs.flatMap (deadRows live s.store.children depth) := by
        refine List.flatMap_congr fun d hd => deadRows_congr live s.store s₁.store hs depth d ?_
        exact fun x hx => children_after_cut live s.store s₁.store hs c d node x hcp
          (hparent d (List.mem_cons_of_mem c hd)) (fun he => hout (he ▸ hd)) hcut₁ hx
      rw [hrest] at htook₂
      refine ⟨s₂, ?_, hworks₁.trans live _ _ _ hworks₂, (hcut₁.trans hcut₂).congr_gone fun x => ?_,
        htook₁.append s s₁ s₂ _ _ htook₂⟩
      · simp only [List.foldlM_cons, hrun₁, bind, Except.bind, hrun₂]
      · by_cases hx : Dead live s.store c x
        · simp only [hx, true_or, List.mem_cons, exists_eq_or_imp]
        · simp only [hx, false_or, List.mem_cons, exists_eq_or_imp,
            dead_after_cut live s.store s₁.store c _ x hcut₁ hx]

/-- The sweep below a node takes out exactly what is dead, provided that it may
    go as many levels deep as there are nodes under the node. The live children
    are swept first, and the dead ones go then. -/
theorem removeDead_spec (live : Snapshot) (hlive : live.Proper) (depth : Nat) :
    Culls live depth := by
  induction depth with
  | zero =>
      intro node s _ _ hdepth
      have hpos := Forest.weight_pos s.store.parent node
      omega
  | succ depth ih =>
      intro node s hs hn hdepth
      have hkid : ∀ c ∈ (s.store.children node).filter live.contains,
          s.store.parent c = some node := fun c hc =>
        (hs.tree.mem_kids node c).mp (List.mem_of_mem_filter hc)
      have hweight : ∀ c ∈ (s.store.children node).filter live.contains,
          Forest.weight s.store.parent c ≤ depth := by
        intro c hc
        have hlt := hs.tree.weight_lt c node (hkid c hc)
        omega
      rcases ih.siblings live depth node _ s hs hkid hweight ((hs.tree.nodup node).filter _) with
        ⟨s₁, hrun₁, hworks₁, hcut₁, htook₁⟩
      -- The children of the node are none of what is dead below one of them.
      have hstay : ∀ c ∈ s.store.children node,
          ¬ ∃ d ∈ (s.store.children node).filter live.contains, Dead live s.store d c := by
        rintro c hc ⟨d, hd, hdead⟩
        exact sibling_not_dead live s.store hs d c node (hkid d hd)
          ((hs.tree.mem_kids node c).mp hc) hdead
      have hkids₁ : s₁.store.children node = s.store.children node := by
        refine hcut₁.sound.children_ext _ _ hs node node fun c => ?_
        rw [← hcut₁.sound.tree.mem_kids, ← hs.tree.mem_kids, hcut₁.mem_children_iff hs]
        exact and_iff_left_of_imp (hstay c)
      have hn₁ : s₁.store.contains node = true := by
        rw [hcut₁.contains_iff]
        refine ⟨hn, ?_⟩
        rintro ⟨d, hd, v, _, hvd, _, hnv⟩
        exact hs.tree.acyclic d node (hkid d hd) (hnv.trans hvd)
      rcases removeRuns_spec live hlive (fun c => !live.contains c)
        (fun v hv => (Bool.not_eq_true' _).mp hv) node [] (s.store.children node) s₁ hcut₁.sound hn₁
        hkids₁ with ⟨s₂, hrun₂, hworks₂, hcut₂, htook₂⟩
      refine ⟨s₂, ?_, hworks₁.trans live _ _ _ hworks₂, (hcut₁.trans hcut₂).congr_gone fun x => ?_,
        htook₁.append s s₁ s₂ _ _ htook₂⟩
      · simp only [List.length_nil] at hrun₂
        simp only [removeDead, hrun₁, bind, Except.bind, hrun₂]
      · rw [dead_iff_kid live s.store hs]
        by_cases hx : ∃ c ∈ (s.store.children node).filter live.contains, Dead live s.store c x
        · simp only [hx, true_or]
        · simp only [hx, false_or, hcut₁.links.under_iff x _ hx, Bool.not_eq_eq_eq_not,
            Bool.not_true]

end Pass

end TreeWatch
