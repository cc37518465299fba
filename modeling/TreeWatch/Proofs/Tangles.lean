import TreeWatch.Proofs.Handling

/-!
# Sources That Contradict Themselves

What a source may say without breaking anything. A tracker is given a sequence
of tasks, each with the source of its moment, and the sources need not agree
with each other or with themselves. It withstands the sequence if no task ends
in a fault, the record is sound after each task, and a copy that matches in the
beginning has noted nothing and matches after each task.

Every sequence without a tangle is withstood. A tangle is never withstood: the
root of the record cannot be evicted, so it is passed over where the snapshot
shows it below the entering node, but its children there are put under it
without a row of their own being announced. If the node enters right below the
root and one of these children sorts before it, the rows of the batch are not
where they were announced and the insertion ends in a fault. Otherwise the copy
misses them. So the absence of tangles is the exact condition.

## Main definitions

* `Moment`: A task with the source and the instant at which it is handled.
* `Tracker.Withstands`: A sequence of tasks breaks nothing.
* `Tracker.Untangled`: No task of a sequence meets a tangle.

## Theorems

* `Step.insertRows_unannounced`: A copy misses children that are put under the
  root.
* `Tracker.handle_tangled`: A task with a tangle breaks something.
* `Tracker.withstands_iff`: What is withstood is what has no tangle.
-/

namespace TreeWatch

open Forest (Under)

namespace Replica

-- A single announced row with all that the grid shows below it.
theorem lists_insertRow (q : Replica) (t : Store) (i : Index) (row : Nat) (top : Handle)
    (list : List Handle) (htop : (t.children i.node)[row]? = some top)
    (hget : q.childLists[i.node]? = some list) :
    (q.insertRows t (some i) row row).childLists =
      if list.length < row then q.childLists
      else t.surveyFrom ⟨row, 0, top⟩
        (q.childLists.insert i.node (list.take row ++ [top] ++ list.drop row)) := by
  have hspan : span row row = [row] := by
    simp only [span, Nat.add_sub_cancel_left, List.range_one, List.map_cons, List.map_nil,
      Nat.add_zero]
  simp only [insertRows, hspan, List.map_cons, List.map_nil, index_row, htop, Option.map_some,
    List.foldl_cons, List.foldl_nil, Option.isNone_some, Bool.false_eq_true, if_false,
    List.filterMap_cons, List.filterMap_nil, hget]
  by_cases hlen : list.length < row
  · rw [if_pos hlen, if_pos hlen]
    rfl
  · rw [if_neg hlen, if_neg hlen]
    rfl

/-- A copy misses a child that comes to be under the root while another row is
    announced. The walk below the announced row does not reach the root, and
    the list of the root gets the announced row at most. -/
theorem misses_kid (q : Replica) (s t : Store) (hs : s.Sound) (ht : t.Sound) (i : Index) (row : Nat)
    (top r k : Handle) (hq : q.matchesGrid s = true) (hp : s.contains i.node = true)
    (htop : (t.children i.node)[row]? = some top) (hrs : s.root = some r) (hrt : t.root = some r)
    (hrtop : ¬ Under t.parent r top) (hk : k ∈ t.children r) (hold : k ∉ s.children r)
    (hne : k ≠ top) :
    (q.observe [⟨.rowsAboutToBeInserted (some i) row row, s⟩,
      ⟨.rowsInserted (some i) row row, t⟩]).matchesGrid t = false := by
  rcases (q.matchesGrid_iff s).mp hq with ⟨_, hlists⟩
  have hget : ∀ x, s.contains x = true → q.childLists[x]? = some (s.children x) := by
    intro x hx
    rw [hlists, hs.shape_get, if_pos hx]
  have hr : s.contains r = true := (s.contains_iff r).mpr (Or.inl hrs)
  have hroot : t.contains r = true := (t.contains_iff r).mpr (Or.inl hrt)
  -- Noting a mismatch or an event leaves the lists alone.
  have hbefore : ∀ q' : Replica, q' = (q.apply (.rowsAboutToBeInserted (some i) row row) s) →
      q'.childLists = q.childLists := by
    rintro q' rfl
    simp only [apply]
    split <;> rfl
  generalize hq' : q.apply (.rowsAboutToBeInserted (some i) row row) s = q'
  have hsame := hbefore q' hq'.symm
  have hafter : ∃ list, (q'.apply (.rowsInserted (some i) row row) t).childLists[r]? = some list ∧
      k ∉ list := by
    have htopt : t.contains top = true := by
      rw [t.contains_iff]
      exact Or.inr ⟨i.node, (ht.tree.mem_kids _ _).mp (List.mem_of_getElem? htop)⟩
    rw [apply, lists_insertRow _ t i row top (s.children i.node) htop
      (by rw [← hget i.node hp, ← hsame])]
    by_cases hlen : (s.children i.node).length < row
    · rw [if_pos hlen]
      exact ⟨s.children r, by rw [← hget r hr, ← hsame], hold⟩
    · rw [if_neg hlen, ht.surveyFrom_get t ⟨row, 0, top⟩ rfl htopt _ r False
        (iff_of_false not_false hrtop), if_neg not_false, HandleMap.get_insert]
      by_cases hir : i.node = r
      · rw [if_pos hir]
        refine ⟨_, rfl, fun hm => ?_⟩
        rw [List.mem_append, List.mem_append, List.mem_singleton] at hm
        rcases hm with (hm | hm) | hm
        · exact hold (hir ▸ List.mem_of_mem_take hm)
        · exact hne hm
        · exact hold (hir ▸ List.mem_of_mem_drop hm)
      · rw [if_neg hir]
        exact ⟨s.children r, by rw [← hget r hr, ← hsame], hold⟩
  rcases hafter with ⟨list, hlist, hmiss⟩
  rw [← Bool.not_eq_true]
  intro hgrid
  rw [observe_cons, observe_cons, hq', matchesGrid_iff] at hgrid
  have heq := hgrid.2
  change (q'.apply (.rowsInserted (some i) row row) t).childLists = t.shape at heq
  rw [heq, ht.shape_get, if_pos hroot, Option.some.injEq] at hlist
  exact hmiss (hlist ▸ hk)

end Replica

namespace Step

/-- Whatever copy matches the record at the first moment does not match it at
    the second. -/
def Loses (s s' : Step) : Prop :=
  ∃ trace, s'.trace = s.trace ++ trace ∧
    ∀ q : Replica, q.matchesGrid s.store = true → (q.observe trace).matchesGrid s'.store = false

-- A copy that was in line up to some moment can be lost after it.
theorem Keeps.loses (s m s' : Step) (h : Keeps s m) (h' : Loses m s') : Loses s s' := by
  rcases h.tells with ⟨before, hbefore, htells⟩
  rcases h' with ⟨after, hafter, hlost⟩
  refine ⟨before ++ after, ?_, fun q hq => ?_⟩
  · rw [hafter, hbefore, List.append_assoc]
  · rw [Replica.observe_append]
    exact hlost _ (htells q hq).2

section Unannounced

variable (s : Step) (hs : s.store.Sound)

include hs

/-- If the snapshot shows the root below the inserted node, with a child that
    is new, the child is put under the root and a copy misses it. -/
theorem insertRows_unannounced (parent top r k : Handle) (row : Nat) (fill : Snapshot)
    (hfill : fill.Proper) (hp : s.store.contains parent = true)
    (htop : s.store.contains top = false) (hr : s.store.root = some r)
    (hrd : r ∈ fill.descendants top) (hk : fill.parent k = some r)
    (hknew : s.store.contains k = false) (s' : Step)
    (hins : s.insertRows parent row [top] fill = .ok s') : Loses s s' := by
  have hnew : ∀ h ∈ [top], s.store.contains h = false := by
    intro h hh
    rw [List.mem_singleton] at hh
    exact hh ▸ htop
  rcases hs.planted_insertFilled s.store parent [top] fill hfill hp hnew (List.nodup_singleton top)
    (hfill.apart_singleton fill top) with ⟨t, ht, hpl⟩
  -- The child hangs under the root now, and it did not before.
  rcases (hfill.mem_descendants_iff_ne fill top r).mp hrd with ⟨hrne, hru⟩
  have hkd : k ∈ fill.descendants top := by
    rw [hfill.mem_descendants_iff_ne]
    refine ⟨?_, (Under.of_up hk).trans hru⟩
    rintro rfl
    exact hfill.tree.acyclic k r hk hru
  have hkne : k ≠ top := ((hfill.mem_descendants_iff_ne fill top k).mp hkd).1
  have hkt : k ∈ t.children r := by
    rw [hpl.sound.tree.mem_kids, hpl.below top (List.mem_singleton_self top) k hkd hknew
      (mt List.mem_singleton.mp hkne), hk]
  have hks : k ∉ s.store.children r := by
    rw [hs.tree.mem_kids, ((s.store.not_contains_iff k).mp hknew).2]
    exact fun h => absurd h (by simp only [reduceCtorEq, not_false_eq_true])
  have hrt : t.root = some r := hpl.root.trans hr
  have hrtop : ¬ Under t.parent r top := by
    intro hu
    exact hrne (Forest.eq_of_under_top (hpl.sound.tree.root_up r hrt) hu).symm
  rcases s.parentIndex_spec parent (rowOf?_of_contains s.store hs parent hp) with
    ⟨i, found, lookups, hi, hindex⟩
  unfold insertRows at hins
  simp only [List.isEmpty_cons, Bool.false_eq_true, if_false, List.length_singleton, addCounts,
    bind, Except.bind] at hins
  by_cases hfit : row + 1 < Text.wordBound
  · simp only [hfit, if_true, Nat.add_sub_cancel, hindex, emit, ht] at hins
    by_cases hplace : ((t.children parent).drop row).take 1 = [top]
    · simp only [hplace, ne_eq, not_true_eq_false, if_false, pure, Except.pure,
        Except.ok.injEq] at hins
      have hrow : (t.children i.node)[row]? = some top := by
        have hhead := congrArg List.head? hplace
        rw [List.head?_take, if_neg Nat.one_ne_zero, List.head?_drop] at hhead
        exact hi ▸ hhead
      refine ⟨[⟨.rowsAboutToBeInserted (some i) row row, s.store⟩,
        ⟨.rowsInserted (some i) row row, t⟩], ?_, fun q hq => ?_⟩
      · rw [← hins]
        exact List.append_assoc s.trace [_] [_]
      · rw [← hins]
        exact q.misses_kid s.store t hs hpl.sound i row top r k hq (hi ▸ hp) hrow hr hrt hrtop hkt
          hks hkne
    · simp only [ne_eq, hplace, not_false_eq_true, if_true, throw, throwThe, MonadExceptOf.throw,
        reduceCtorEq] at hins
  · simp only [hfit, if_false, reduceCtorEq] at hins

end Unannounced

end Step

namespace PointEdit

section Tangle

variable (source : Source) (node : Handle) (tally tally' : Tally) (s s' : Step)
  (hs : s.store.Sound)

include hs

/-- A node that enters with a tangle leaves every copy behind, if its insertion
    does not end in a fault. -/
theorem entered_tangled (htangled : Tangled source s.store node)
    (hok : entered source node tally s = .ok (tally', s')) : Step.Loses s s' := by
  rcases htangled with ⟨hnode, hlive, parent, top, r, hclimb, hr, hrd, hkids, hstays⟩
  rcases climb_under s.store source node _ node parent top hnode hclimb with ⟨hpt, htop, _, _⟩
  have hfill := source.proper_subtree top
  have hltop : source.isLive top = true := by
    by_contra hdead
    rcases (hfill.mem_descendants _ top r).mp hrd with ⟨c, hc, _⟩
    have hcc := (hfill.contains_of_parent _ c top hc).1
    rw [Source.subtree, if_neg hdead, Snapshot.contains_empty] at hcc
    exact Bool.false_ne_true hcc
  unfold entered at hok
  simp only [hnode, hlive, Bool.not_true, Bool.or_self, Bool.false_eq_true, if_false, hclimb,
    source.isEmpty_subtree, hltop] at hok
  rcases s.evictTracked_spec source.isLive hs [top] (source.subtree top) with
    ⟨flag, m, hevict, hedits, hcut, _, _⟩
  rw [List.flatMap_singleton] at hcut
  have hpm : m.store.contains parent = true := (hcut.contains_iff parent).mpr ⟨hpt, hstays⟩
  have htopm := (hcut.not_contains_iff top).mpr (Or.inl htop)
  simp only [hevict, bind, Except.bind, hpm, if_true, pure, Except.pure] at hok
  -- A child of the root in the snapshot: it is new once the eviction is over.
  rcases List.exists_mem_of_ne_nil _ hkids with ⟨k, hk⟩
  have hkr := (hfill.tree.mem_kids r k).mp hk
  rcases (hfill.mem_descendants_iff_ne _ top r).mp hrd with ⟨hrne, hru⟩
  have hkd : k ∈ (source.subtree top).descendants top := by
    rw [hfill.mem_descendants_iff_ne]
    refine ⟨?_, (Under.of_up hkr).trans hru⟩
    rintro rfl
    exact hfill.tree.acyclic k r hkr hru
  have hkm : m.store.contains k = false := by
    rw [Store.not_contains_iff, hcut.root, hr]
    refine ⟨?_, s.parent_of_evicted m.store _ hcut k hkd⟩
    intro he
    rw [Option.some.injEq] at he
    subst he
    exact hfill.tree.acyclic r r hkr (Under.refl r)
  cases hins : m.insertRows parent (m.store.insertionRow parent top) [top] (source.subtree top) with
  | error f =>
      simp only [hins, reduceCtorEq] at hok
  | ok s'' =>
      simp only [hins, Except.ok.injEq, Prod.mk.injEq] at hok
      rcases hok with ⟨_, rfl⟩
      exact (hedits.keeps s m).loses s m s'' (m.insertRows_unannounced hedits.sound parent top r k _
        _ hfill hpm htopm (hcut.root.trans hr) hrd hkr hkm s'' hins)

/-- The same for a node that moves: it is taken out first. -/
theorem reparented_tangled (htangled : (Task.reparented node).Tangles source s.store)
    (hok : reparented source node tally s = .ok (tally', s')) : Step.Loses s s' := by
  unfold reparented at hok
  by_cases hnode : s.store.contains node = true
  · rw [Task.Tangles, if_pos hnode] at htangled
    rcases htangled with ⟨hroot, hmoved, htangled⟩
    simp only [hnode, htangled.2.1, Bool.not_true, Bool.false_eq_true, if_false, hmoved,
      hroot] at hok
    rcases ((s.store.contains_iff node).mp hnode).resolve_left hroot with ⟨p, hp⟩
    rcases s.removeNode_spec source.isLive hs node p hp with ⟨m, hrem, hedits, hcut⟩
    have hcut' := hs.cuts_remove s.store node hroot
    rw [← tangled_congr source (s.store.remove node).2 m.store node
      (hcut.root.trans hcut'.root.symm) (hcut.parent_eq hcut')] at htangled
    simp only [hrem, bind, Except.bind] at hok
    cases hent : entered source node tally m with
    | error f =>
        simp only [hent, reduceCtorEq] at hok
    | ok done =>
        have hlost := (hedits.keeps s m).loses s m done.2
          (entered_tangled source node tally done.1 m done.2 hedits.sound htangled hent)
        simp only [hent, pure, Except.pure] at hok
        -- Counting a relocation changes the report alone.
        by_cases hback : done.2.store.contains node = true
        · rw [if_pos hback, Except.ok.injEq, Prod.mk.injEq] at hok
          exact hok.2 ▸ hlost
        · rw [if_neg hback, Except.ok.injEq, Prod.mk.injEq] at hok
          exact hok.2 ▸ hlost
  · rw [Task.Tangles, if_neg hnode] at htangled
    simp only [hnode, Bool.not_false, if_true] at hok
    exact entered_tangled source node tally tally' s s' hs htangled hok

end Tangle

end PointEdit

/-- A task with the source and the instant at which it is handled. -/
structure Moment where
  source : Source
  task : Task
  now : Nat

namespace Tracker

/-- A task with a tangle ends in a fault or leaves every copy behind. -/
theorem handle_tangled (t : Tracker) (ht : t.store.Sound) (source : Source) (task : Task)
    (now : Nat) (htangles : task.Tangles source t.store) (o : Outcome Report)
    (ho : t.handle source task now = .ok o) (q : Replica) (hq : q.matchesGrid t.store = true) :
    (q.observe o.trace).matchesGrid o.tracker.store = false := by
  have hlost : ∀ (node : Handle) (edit : Tally → Step → Except Fault (Tally × Step)),
      t.notify node edit = .ok o →
      (∀ tally s, edit t.tally { store := t.store } = .ok (tally, s) →
        Step.Loses { store := t.store } s) →
      (q.observe o.trace).matchesGrid o.tracker.store = false := by
    intro node edit hnotify hedit
    rcases t.edit_of_notify node edit o hnotify with ⟨tally, s, hok, hstore, htrace⟩
    rcases hedit tally s hok with ⟨trace, heq, hall⟩
    rw [List.nil_append] at heq
    rw [hstore, htrace, heq]
    exact hall q hq
  cases task with
  | entered node =>
      exact hlost node _ ho fun tally s =>
        PointEdit.entered_tangled source node t.tally tally _ s ht htangles
  | reparented node =>
      exact hlost node _ ho fun tally s =>
        PointEdit.reparented_tangled source node t.tally tally _ s ht htangles
  | left node => exact absurd htangles not_false
  | attributes node kinds => exact absurd htangles not_false
  | cycleCompleted => exact absurd htangles not_false
  | resync => exact absurd htangles not_false

/-- One task after the other is handled without a fault. After each of them the
    record is sound, and the copy has noted nothing and matches. -/
def Withstands : Tracker → Replica → List Moment → Prop
  | _, _, [] => True
  | t, q, m :: rest =>
    ∃ o, t.handle m.source m.task m.now = .ok o ∧ o.tracker.store.check = none ∧
      (q.observe o.trace).mismatches = [] ∧
      (q.observe o.trace).matchesGrid o.tracker.store = true ∧
      Withstands o.tracker (q.observe o.trace) rest

/-- No task meets a tangle in the record that the tasks before it left. -/
def Untangled : Tracker → List Moment → Prop
  | _, [] => True
  | t, m :: rest =>
    ¬ m.task.Tangles m.source t.store ∧
      ∀ o, t.handle m.source m.task m.now = .ok o → Untangled o.tracker rest

/-- A sequence of tasks, with whatever sources, breaks nothing if and only if
    none of them meets a tangle. -/
theorem withstands_iff (t : Tracker) (ht : t.store.check = none) (q : Replica)
    (hq : q.matchesGrid t.store = true) (hnoted : q.mismatches = []) (moments : List Moment) :
    t.Withstands q moments ↔ t.Untangled moments := by
  induction moments generalizing t q with
  | nil => exact Iff.rfl
  | cons m rest ih =>
      have hsound := t.store.check_eq_none_iff_sound.mp ht
      constructor
      · rintro ⟨o, ho, hcheck, hnone, hgrid, hrest⟩
        refine ⟨fun htangles => ?_, fun o' ho' => ?_⟩
        · rw [t.handle_tangled hsound m.source m.task m.now htangles o ho q hq] at hgrid
          exact Bool.false_ne_true hgrid
        · rw [ho, Except.ok.injEq] at ho'
          exact ho' ▸ (ih o.tracker hcheck _ hgrid hnone).mp hrest
      · rintro ⟨hfree, hrest⟩
        rcases t.handle_spec hsound m.source m.task m.now hfree with ⟨o, ho, hsound', htells⟩
        rcases htells q hq with ⟨hfollows, hgrid⟩
        have hcheck := o.tracker.store.check_eq_none_iff_sound.mpr hsound'
        have hnone := (hfollows.mismatches_eq q o.trace).trans hnoted
        exact ⟨o, ho, hcheck, hnone, hgrid, (ih o.tracker hcheck _ hgrid hnone).mpr (hrest o ho)⟩

/-- The source of a lone root. -/
def lone : Source where
  root := some ⟨1⟩
  children _ := []
  parent _ := none
  isLive h := h = ⟨1⟩
  describe _ := none

/-- A source that lists its root 1 below the node 9, which in turn hangs
    below 1. The root has the child 20. -/
def loop : Source where
  root := some ⟨1⟩
  children h := if h = ⟨9⟩ then [⟨1⟩] else if h = ⟨1⟩ then [⟨20⟩] else []
  parent h := if h = ⟨9⟩ then some ⟨1⟩ else none
  isLive h := h = ⟨9⟩
  describe _ := none

-- A lone root is taken over, and then 9 enters.
theorem withstands_iff_of_loop :
    (Tracker.ofSettings {} {}).store.check = none ∧
      ({} : Replica).matchesGrid (Tracker.ofSettings {} {}).store = true ∧
      ((Tracker.ofSettings {} {}).Withstands {}
          [⟨lone, .resync, 0⟩, ⟨loop, .entered ⟨9⟩, 0⟩] ↔
        (Tracker.ofSettings {} {}).Untangled [⟨lone, .resync, 0⟩, ⟨loop, .entered ⟨9⟩, 0⟩]) :=
  ⟨by decide +kernel, by decide +kernel,
    withstands_iff _ (by decide +kernel) {} (by decide +kernel) rfl _⟩

-- It is not withstood: 20 comes to be below 1, and no copy is told.
theorem not_withstands_loop :
    ¬ ∀ moments, (Tracker.ofSettings {} {}).Withstands {} moments := by
  intro hall
  rcases hall [⟨lone, .resync, 0⟩, ⟨loop, .entered ⟨9⟩, 0⟩] with
    ⟨o, ho, _, _, _, o', ho', _, _, hgrid, _⟩
  have hlost : (match (Tracker.ofSettings {} {}).handle lone .resync 0 with
      | .error _ => true
      | .ok o => match o.tracker.handle loop (.entered ⟨9⟩) 0 with
        | .error _ => true
        | .ok o' => !((({} : Replica).observe o.trace).observe o'.trace).matchesGrid
            o'.tracker.store) = true := by
    decide +kernel
  simp only [ho, ho', hgrid, Bool.not_true, Bool.false_eq_true] at hlost

end Tracker

end TreeWatch
