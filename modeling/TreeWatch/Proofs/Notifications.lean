import TreeWatch.PointEdit
import TreeWatch.Proofs.Edits

/-!
# What Notifications Do

The three notifications, each as a relation between the record before and the
record after. A notification that is stale leaves the record alone. One that
applies cuts a subtree out, plants one, or does both, and the relation says
which and why. Everything that is proved about notifications elsewhere is
proved from these relations.

Of the source nothing is assumed. An insertion only needs that the snapshot
shows nothing below a tracked node, and an eviction right before it leaves one
node that might be in the way: the root of the record, which has no row to be
removed from. A source that shows the root below an entering node, with
children of its own, is `Tangled`. It is the one case that is left out here.

## Main definitions

* `Step.Keeps`: A stretch of a step that leaves record and copies in line.
* `PointEdit.Tangled`: A source shows the root below an entering node.
* `PointEdit.Enters`, `PointEdit.Leaves`, `PointEdit.Moves`: What the three
  notifications do to a record, and whether they ask for a full pass.

## Theorems

* `PointEdit.climb_under`, `PointEdit.climb_rootless`: Where a climb ends.
* `PointEdit.adoptRoot_spec`: A node that may become the root.
* `PointEdit.entered_spec`: A node that enters without a tangle.
* `PointEdit.left_spec`: A node that leaves.
* `PointEdit.reparented_spec`: A node that moves without a tangle.
-/

namespace TreeWatch

open Forest (Under under_iff_up)

namespace Step

/-- Between two moments of a step the record stayed sound, and what was
    announced leads from the one record to the other. -/
structure Keeps (s s' : Step) : Prop where
  sound : s'.store.Sound
  tells : ∃ trace, s'.trace = s.trace ++ trace ∧ Tells s.store trace s'.store

theorem Edits.keeps (s s' : Step) (h : Edits s s') : Keeps s s' := ⟨h.sound, h.tells⟩

theorem Keeps.trans (s s' s'' : Step) (h : Keeps s s') (h' : Keeps s' s'') : Keeps s s'' := by
  rcases h.tells with ⟨before, hbefore, htells⟩
  rcases h'.tells with ⟨after, hafter, htells'⟩
  refine ⟨h'.sound, before ++ after, ?_, htells.append _ _ _ before after htells'⟩
  rw [hafter, hbefore, List.append_assoc]

-- Asking for a pass and reporting a condition change neither record nor trace.
theorem Keeps.of_eq (s s' s'' : Step) (h : Keeps s s') (hstore : s''.store = s'.store)
    (htrace : s''.trace = s'.trace) : Keeps s s'' :=
  ⟨hstore ▸ h.sound, hstore ▸ htrace ▸ h.tells⟩

theorem Keeps.refl (s : Step) (hs : s.store.Sound) : Keeps s s := (Edits.refl s hs).keeps s s

end Step

namespace Source

-- Nothing is captured exactly below a dead node, since a capture holds its root.
theorem isEmpty_subtree (source : Source) (node : Handle) :
    (source.subtree node).isEmpty = !source.isLive node := by
  cases hl : source.isLive node with
  | false =>
      simp only [subtree, hl, Bool.false_eq_true, if_false, Snapshot.isEmpty, Snapshot.empty,
        Std.ExtTreeMap.isEmpty_empty, Bool.not_false]
  | true =>
      have hcap := Snapshot.captures_capture source.children node
      have hnode := (hcap.proper.contains_iff node).mpr (Or.inl hcap.root_eq)
      rw [subtree, if_pos hl, Bool.not_true, Snapshot.isEmpty, Std.ExtTreeMap.isEmpty_eq_false_iff]
      intro he
      rw [Snapshot.contains, he, Std.ExtTreeMap.contains_empty] at hnode
      exact Bool.false_ne_true hnode

end Source

namespace PointEdit

section Climb

variable (s : Store) (source : Source) (node : Handle)

-- One step of a climb: it ends here or goes on from an untracked parent.
theorem climb_cases (bound : Nat) (h : Handle) :
    (source.parent h = none ∧ climb s source node bound h = .rootless h) ∨
    (∃ p, source.parent h = some p ∧ s.contains p = true ∧
      climb s source node bound h = .under p h) ∨
    climb s source node bound h = .endless ∨
    ∃ p n, source.parent h = some p ∧ s.contains p = false ∧ bound = n + 1 ∧
      climb s source node bound h = climb s source node n p := by
  have hstep := climb.eq_def s source node bound h
  cases hp : source.parent h with
  | none =>
      simp only [hp] at hstep
      exact Or.inl ⟨rfl, hstep⟩
  | some p =>
      simp only [hp] at hstep
      by_cases hc : s.contains p = true
      · rw [if_pos hc] at hstep
        exact Or.inr (Or.inl ⟨p, rfl, hc, hstep⟩)
      · rw [if_neg hc] at hstep
        rw [Bool.not_eq_true] at hc
        by_cases hn : p = node
        · rw [if_pos hn] at hstep
          exact Or.inr (Or.inr (Or.inl hstep))
        · rw [if_neg hn] at hstep
          cases bound with
          | zero => exact Or.inr (Or.inr (Or.inl hstep))
          | succ n => exact Or.inr (Or.inr (Or.inr ⟨p, n, rfl, hc, rfl, hstep⟩))

/-- A climb that ends below a tracked node went over untracked ones. -/
theorem climb_under (bound : Nat) (h parent top : Handle) (hh : s.contains h = false)
    (hclimb : climb s source node bound h = .under parent top) :
    s.contains parent = true ∧ s.contains top = false ∧ source.parent top = some parent ∧
      Under source.parent h top := by
  induction bound using Nat.strong_induction_on generalizing h with
  | _ bound ih =>
      rcases climb_cases s source node bound h with
        ⟨_, he⟩ | ⟨p, hp, hc, he⟩ | he | ⟨p, n, hp, hc, hn, he⟩ <;> rw [he] at hclimb
      · exact absurd hclimb (by simp only [reduceCtorEq, not_false_eq_true])
      · rw [Climb.under.injEq] at hclimb
        rcases hclimb with ⟨rfl, rfl⟩
        exact ⟨hc, hh, hp, Under.refl h⟩
      · exact absurd hclimb (by simp only [reduceCtorEq, not_false_eq_true])
      · rcases ih n (by omega) p hc hclimb with ⟨hparent, htop, hlink, hu⟩
        exact ⟨hparent, htop, hlink, (Under.of_up hp).trans hu⟩

/-- A climb that ends at a node without a parent started there, or below an
    untracked node. -/
theorem climb_rootless (bound : Nat) (h top : Handle)
    (hclimb : climb s source node bound h = .rootless top) :
    source.parent top = none ∧ Under source.parent h top ∧
      (h = top ∨ ∃ p, source.parent h = some p ∧ s.contains p = false) := by
  induction bound using Nat.strong_induction_on generalizing h with
  | _ bound ih =>
      rcases climb_cases s source node bound h with
        ⟨hp, he⟩ | ⟨p, hp, hc, he⟩ | he | ⟨p, n, hp, hc, hn, he⟩ <;> rw [he] at hclimb
      · rw [Climb.rootless.injEq] at hclimb
        exact ⟨hclimb ▸ hp, hclimb ▸ Under.refl h, Or.inl hclimb⟩
      · exact absurd hclimb (by simp only [reduceCtorEq, not_false_eq_true])
      · exact absurd hclimb (by simp only [reduceCtorEq, not_false_eq_true])
      · rcases ih n (by omega) p hclimb with ⟨htop, hu, _⟩
        exact ⟨htop, (Under.of_up hp).trans hu, Or.inr ⟨p, hp, hc⟩⟩

end Climb

/-- The source shows the root of the record below the top of what an entering
    node brings along, and there the root has children. The insertion would
    put them below the root without a row of their own being announced. -/
def Tangled (source : Source) (s : Store) (node : Handle) : Prop :=
  s.contains node = false ∧ source.isLive node = true ∧ ∃ parent top r,
    climb s source node (maxChain - 1) node = .under parent top ∧ s.root = some r ∧
      r ∈ (source.subtree top).descendants top ∧ (source.subtree top).children r ≠ [] ∧
      ¬ Step.Evicted s ((source.subtree top).descendants top) parent

-- A climb only asks which nodes are tracked.
theorem climb_congr (source : Source) (s t : Store) (node : Handle)
    (hc : ∀ x, t.contains x = s.contains x) (bound : Nat) (h : Handle) :
    climb t source node bound h = climb s source node bound h := by
  induction bound generalizing h with
  | zero =>
      unfold climb
      simp only [hc]
  | succ n ih =>
      unfold climb
      simp only [hc, ih]

/-- Whether a node tangles a record depends on the root and the parent links
    alone. -/
theorem tangled_congr (source : Source) (s t : Store) (node : Handle) (hroot : t.root = s.root)
    (hup : ∀ x, t.parent x = s.parent x) : Tangled source t node ↔ Tangled source s node := by
  have hc := s.contains_congr t hroot hup
  simp only [Tangled, hc, climb_congr source s t node hc, hroot, Step.Evicted, funext hup]

/-- What a node that enters does to a record, and whether it asks for a full
    pass. -/
inductive Enters (source : Source) (node : Handle) (s : Store) : Store → Bool → Prop where
  /-- It is tracked already, or dead by now. -/
  | stale (h : s.contains node = true ∨ source.isLive node = false) :
    Enters source node s s false
  /-- The climb from it has no end. -/
  | lost : Enters source node s s true
  /-- It leads to a node without a parent that does not become the root. -/
  | stray (top : Handle) (hnode : s.contains node = false) (hlive : source.isLive node = true)
    (hclimb : climb s source node (maxChain - 1) node = .rootless top)
    (hroot : s.root ≠ none ∨ source.root ≠ some top) : Enters source node s s false
  /-- It leads to the root of the source, and nothing was tracked. -/
  | adopted (top : Handle) (t : Store) (hempty : s.root = none) (hroot : source.root = some top)
    (hfilled : Store.Filled (source.subtree top) (Store.ofRoot (some top))
      ((source.subtree top).descendants top) t) : Enters source node s t false
  /-- The topmost untracked ancestor is dead. -/
  | barren (parent top : Handle) (hnode : s.contains node = false)
    (hlive : source.isLive node = true)
    (hclimb : climb s source node (maxChain - 1) node = .under parent top)
    (hdead : source.isLive top = false) : Enters source node s s false
  /-- Making room took away the place it belongs to. -/
  | displaced (top : Handle) (t : Store)
    (hcut : s.Cuts t (Step.Evicted s ((source.subtree top).descendants top))) :
    Enters source node s t true
  /-- Its topmost untracked ancestor is put where it belongs, with all below
      it, after what was tracked there made room. -/
  | planted (parent top : Handle) (m t : Store)
    (hclimb : climb s source node (maxChain - 1) node = .under parent top)
    (hnode : s.contains node = false) (hlive : source.isLive node = true)
    (hcut : s.Cuts m (Step.Evicted s ((source.subtree top).descendants top)))
    (hparent : m.contains parent = true)
    (hplanted : Store.Planted (source.subtree top) parent m [top] t) : Enters source node s t false

/-- What a node that leaves does to a record. -/
inductive Leaves (node : Handle) (s : Store) : Store → Prop where
  | untracked (h : s.contains node = false) : Leaves node s s
  | root (h : s.root = some node) : Leaves node s Store.empty
  | cut (t : Store) (hroot : s.root ≠ some node) (hcut : s.Cuts t (Under s.parent · node)) :
    Leaves node s t

/-- What a node that moves does to a record, and whether it asks for a full
    pass. A tracked node is taken out first and then enters. -/
inductive Moves (source : Source) (node : Handle) (s : Store) : Store → Bool → Prop where
  | entered (t : Store) (asks : Bool) (hnode : s.contains node = false)
    (h : Enters source node s t asks) : Moves source node s t asks
  | left (t : Store) (hdead : source.isLive node = false) (h : Leaves node s t) :
    Moves source node s t false
  | unmoved (hnode : s.contains node = true) (h : source.parent node = s.parent node) :
    Moves source node s s false
  | root : Moves source node s s true
  | moved (m t : Store) (asks : Bool) (hlive : source.isLive node = true)
    (hroot : s.root ≠ some node) (hcut : s.Cuts m (Under s.parent · node))
    (h : Enters source node m t asks) :
    Moves source node s t asks

section Handlers

variable (source : Source) (node : Handle) (tally : Tally) (s : Step) (hs : s.store.Sound)

/-- After an eviction nothing of the record is below the entering node but the
    root, and without a tangle the root brings nothing along. -/
theorem clear_of_untangled (parent top : Handle) (m : Store)
    (hnode : s.store.contains node = false) (hlive : source.isLive node = true)
    (hfree : ¬ Tangled source s.store node)
    (hclimb : climb s.store source node (maxChain - 1) node = .under parent top)
    (hcut : s.store.Cuts m (Step.Evicted s.store ((source.subtree top).descendants top)))
    (hparent : m.contains parent = true) : m.Clear [top] (source.subtree top) := by
  intro h hh x hx hm
  rw [List.mem_singleton] at hh
  subst hh
  by_contra hkids
  refine hfree ⟨hnode, hlive, parent, h, x, hclimb, ?_, hx, hkids,
    ((hcut.contains_iff parent).mp hparent).2⟩
  rcases (m.contains_iff x).mp hm with hr | ⟨p, hp⟩
  · exact hcut.root ▸ hr
  · rw [s.parent_of_evicted m _ hcut x hx] at hp
    exact absurd hp (by simp only [reduceCtorEq, not_false_eq_true])

include hs

/-- A single new node fits where it belongs. -/
theorem ascending_single (parent top : Handle) (htop : s.store.contains top = false) :
    Handle.Ascending ((s.store.children parent).takeWhile (· < top) ++ [top] ++
      (s.store.children parent).dropWhile (· < top)) := by
  have hnot : top ∉ s.store.children parent := by
    rw [hs.tree.mem_kids]
    intro hm
    rw [((s.store.not_contains_iff top).mp htop).2] at hm
    exact absurd hm (by simp only [reduceCtorEq, not_false_eq_true])
  have hasc := Handle.ascending_insertInto top _ (hs.ascending parent) hnot
  rwa [Handle.insertInto_eq, ← List.singleton_append, ← List.append_assoc] at hasc

/-- A single new node can be inserted where it belongs. -/
theorem insertRows_single (parent top : Handle) (fill : Snapshot) (hfill : fill.Proper)
    (hp : s.store.contains parent = true) (htop : s.store.contains top = false)
    (hclear : s.store.Clear [top] fill) :
    ∃ s', s.insertRows parent (s.store.insertionRow parent top) [top] fill = .ok s' ∧
      Step.Edits s s' ∧ s.store.Planted fill parent [top] s'.store :=
  s.insertRows_spec hs parent _ [top] _ fill hfill hp (List.cons_ne_nil top [])
    List.takeWhile_append_dropWhile.symm (ascending_single s hs parent top htop)
    (fun _ hh => List.mem_singleton.mp hh ▸ htop) (hfill.apart_singleton fill top) hclear

omit hs in
-- When a node without a parent may become the root.
theorem adopts_iff (top : Handle) : (s.store.isEmpty && source.root = some top) = true ↔
    s.store.root = none ∧ source.root = some top := by
  rw [Bool.and_eq_true, decide_eq_true_eq, Store.isEmpty, Option.isNone_iff_eq_none]

/-- A node without a parent becomes the root of an empty record, or nothing is done
    about it. -/
theorem adoptRoot_spec (top : Handle) (hnode : s.store.contains node = false)
    (hlive : source.isLive node = true)
    (hclimb : climb s.store source node (maxChain - 1) node = .rootless top) :
    Step.Keeps s (adoptRoot source top tally s).2 ∧
      (adoptRoot source top tally s).2.report.resyncRequested = s.report.resyncRequested ∧
      Enters source node s.store (adoptRoot source top tally s).2.store false := by
  have hiff := adopts_iff source s top
  unfold adoptRoot
  by_cases hadopt : (s.store.isEmpty && source.root = some top) = true
  · rcases hiff.mp hadopt with ⟨hempty, hroot⟩
    rcases s.reset_spec source.isLive top _ (source.proper_subtree top) with ⟨hedits, hfilled⟩
    rw [if_pos hadopt]
    exact ⟨hedits.keeps s _, hedits.requested, .adopted top _ hempty hroot hfilled⟩
  · rw [if_neg hadopt]
    exact ⟨Step.Keeps.refl s hs, rfl,
      .stray top hnode hlive hclimb (not_and_or.mp (mt hiff.mpr hadopt))⟩

/-- A node that enters is dealt with, whatever the source says, as long as it
    does not tangle the record. -/
theorem entered_spec (hfree : ¬ Tangled source s.store node) :
    ∃ tally' s' asks, entered source node tally s = .ok (tally', s') ∧ Step.Keeps s s' ∧
      s'.report.resyncRequested = (s.report.resyncRequested || asks) ∧
      Enters source node s.store s'.store asks := by
  have hkeep := Step.Keeps.refl s hs
  by_cases hstale : s.store.contains node = true ∨ source.isLive node = false
  · refine ⟨tally.ignore, s, false, ?_, hkeep, (Bool.or_false _).symm, .stale hstale⟩
    simp only [entered, Bool.or_eq_true, Bool.not_eq_true', hstale, if_true]
  · have hgo : ¬ (s.store.contains node || !source.isLive node) = true := by
      simpa only [Bool.or_eq_true, Bool.not_eq_true'] using hstale
    rw [not_or, Bool.not_eq_true, Bool.not_eq_false] at hstale
    rcases hstale with ⟨hnode, hlive⟩
    unfold entered
    rw [if_neg hgo]
    -- Where the climb ends decides what is done.
    cases hclimb : climb s.store source node (maxChain - 1) node with
    | endless =>
        exact ⟨tally, s.requestResync, true, rfl, hkeep.of_eq s s _ rfl rfl,
          (Bool.or_true _).symm, .lost⟩
    | rootless top =>
        rcases adoptRoot_spec source node tally s hs top hnode hlive hclimb with
          ⟨hkeep', hreq, henters⟩
        exact ⟨_, _, false, rfl, hkeep', hreq.trans (Bool.or_false _).symm, henters⟩
    | under parent top =>
        rcases climb_under s.store source node _ node parent top hnode hclimb with
          ⟨_, htop, _, _⟩
        simp only [source.isEmpty_subtree]
        cases hltop : source.isLive top with
        | false =>
            refine ⟨tally.ignore, s, false, ?_, hkeep, (Bool.or_false _).symm,
              .barren parent top hnode hlive hclimb hltop⟩
            simp only [Bool.not_false, if_true]
        | true =>
            rcases s.evictTracked_spec source.isLive hs [top] (source.subtree top) with
              ⟨flag, m, hevict, hedits, hcut, _, _⟩
            rw [List.flatMap_singleton] at hcut
            simp only [Bool.not_true, Bool.false_eq_true, if_false, hevict, bind, Except.bind]
            -- The eviction may have taken away the very place of the insertion.
            by_cases hparent : m.store.contains parent = true
            · have hclear := clear_of_untangled source node s parent top m.store hnode hlive
                hfree hclimb hcut hparent
              have htopm := (hcut.not_contains_iff top).mpr (Or.inl htop)
              rcases insertRows_single m hedits.sound parent top _ (source.proper_subtree top)
                hparent htopm hclear with ⟨s', hins, hedits', hplanted⟩
              refine ⟨tally.apply, s', false, ?_, (hedits.trans _ _ _ hedits').keeps s s', ?_,
                .planted parent top m.store s'.store hclimb hnode hlive hcut hparent
                  hplanted⟩
              · simp only [hparent, if_true, hins, pure, Except.pure]
              · rw [hedits'.requested, hedits.requested, Bool.or_false]
            · refine ⟨tally, m.requestResync, true, ?_, (hedits.keeps s m).of_eq s m _ rfl rfl,
                (Bool.or_true _).symm, .displaced top m.store hcut⟩
              simp only [hparent, Bool.false_eq_true, if_false, pure, Except.pure]

/-- A node that leaves is dealt with, whatever the source says. -/
theorem left_spec :
    ∃ tally' s', left source node tally s = .ok (tally', s') ∧ Step.Keeps s s' ∧
      s'.report.resyncRequested = s.report.resyncRequested ∧ Leaves node s.store s'.store := by
  have hkeep := Step.Keeps.refl s hs
  unfold left
  by_cases hnode : s.store.contains node = true
  · rw [hnode, Bool.not_true, if_neg Bool.false_ne_true]
    by_cases hroot : s.store.root = some node
    · rcases s.reset_none source.isLive Snapshot.empty with ⟨hedits, hempty⟩
      rw [if_pos hroot]
      refine ⟨_, _, rfl, (hedits.keeps s _).of_eq s _ _ rfl rfl, hedits.requested, ?_⟩
      have hleaves := Leaves.root hroot
      rw [← hempty] at hleaves
      exact hleaves
    · rw [if_neg hroot]
      rcases ((s.store.contains_iff node).mp hnode).resolve_left hroot with ⟨p, hp⟩
      rcases s.removeNode_spec source.isLive hs node p hp with ⟨s', hrem, hedits, hcut⟩
      refine ⟨tally.apply, s', ?_, hedits.keeps s s', hedits.requested,
        .cut s'.store hroot hcut⟩
      simp only [hrem, bind, Except.bind, pure, Except.pure]
  · rw [Bool.not_eq_true] at hnode
    rw [hnode, Bool.not_false, if_pos rfl]
    exact ⟨tally.ignore, s, rfl, hkeep, rfl, .untracked hnode⟩

/-- A node that moves is dealt with, whatever the source says, as long as it
    does not tangle the record it enters: the one there is, or if it is
    tracked, the one without its subtree. -/
theorem reparented_spec
    (hfree : s.store.contains node = false → ¬ Tangled source s.store node)
    (hfree' : s.store.root ≠ some node → source.parent node ≠ s.store.parent node →
      ¬ Tangled source (s.store.remove node).2 node) :
    ∃ tally' s' asks, reparented source node tally s = .ok (tally', s') ∧ Step.Keeps s s' ∧
      s'.report.resyncRequested = (s.report.resyncRequested || asks) ∧
      Moves source node s.store s'.store asks := by
  have hkeep := Step.Keeps.refl s hs
  unfold reparented
  by_cases hnode : s.store.contains node = true
  · rw [hnode, Bool.not_true, if_neg Bool.false_ne_true]
    cases hlive : source.isLive node with
    | false =>
        rcases left_spec source node tally s hs with ⟨tally', s', hleft, hkeep', hreq, hleaves⟩
        refine ⟨tally', s', false, hleft, hkeep', ?_, .left s'.store hlive hleaves⟩
        rw [hreq, Bool.or_false]
    | true =>
        rw [Bool.not_true, if_neg Bool.false_ne_true]
        by_cases hsame : source.parent node = s.store.parent node
        · rw [if_pos hsame]
          exact ⟨tally.ignore, s, false, rfl, hkeep, (Bool.or_false _).symm, .unmoved hnode hsame⟩
        · rw [if_neg hsame]
          by_cases hroot : s.store.root = some node
          · rw [if_pos hroot]
            exact ⟨tally, s.requestResync, true, rfl, hkeep.of_eq s s _ rfl rfl,
              (Bool.or_true _).symm, .root⟩
          · rw [if_neg hroot]
            rcases ((s.store.contains_iff node).mp hnode).resolve_left hroot with ⟨p, hp⟩
            rcases s.removeNode_spec source.isLive hs node p hp with ⟨m, hrem, hedits, hcut⟩
            -- The removal of rows leaves the links of a removal from the record.
            have hcut' := hs.cuts_remove s.store node hroot
            have huntangled : ¬ Tangled source m.store node := by
              rw [tangled_congr source (s.store.remove node).2 m.store node
                (hcut.root.trans hcut'.root.symm) (hcut.parent_eq hcut')]
              exact hfree' hroot hsame
            rcases entered_spec source node tally m hedits.sound huntangled with
              ⟨tally', s', asks, hent, hkeep', hreq, henters⟩
            have hall := (hedits.keeps s m).trans s m s' hkeep'
            rw [hedits.requested] at hreq
            simp only [hrem, bind, Except.bind, hent, pure, Except.pure]
            -- Whether it counts as a relocation changes the report alone.
            by_cases hback : s'.store.contains node = true
            · rw [if_pos hback]
              exact ⟨tally', _, asks, rfl, hall.of_eq s s' _ rfl rfl, hreq,
                .moved m.store s'.store asks hlive hroot hcut henters⟩
            · rw [if_neg hback]
              exact ⟨tally', s', asks, rfl, hall, hreq,
                .moved m.store s'.store asks hlive hroot hcut henters⟩
  · rw [Bool.not_eq_true] at hnode
    rw [hnode, Bool.not_false, if_pos rfl]
    rcases entered_spec source node tally s hs (hfree hnode) with
      ⟨tally', s', asks, hent, hkeep', hreq, henters⟩
    exact ⟨tally', s', asks, hent, hkeep', hreq, .entered s'.store asks hnode henters⟩

end Handlers

end PointEdit

end TreeWatch
