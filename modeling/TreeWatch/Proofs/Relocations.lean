import TreeWatch.Proofs.DeadRows
import TreeWatch.Proofs.Departures
import TreeWatch.Proofs.Moves

/-!
# What Counts as a Relocation

The report of a pass counts relocations. One is counted where a node is moved to its
live parent, and one where a node is taken out because it is live below a node that is
to be inserted. Both are done with timely nodes only. All other removals, of dead rows
in the first sweep and of rows that are passed or left over in the second, take out
nodes that are not timely. So between any two moments of a pass the count grows by the
number of timely nodes in the rows that were taken out (`Tallies`).

A pass takes a row out once and from the parent it had before the pass, so the count
can be told from the record before the pass. It is the number of moved nodes that are
timely and were in a row of their own when they were taken out. A moved node that
was overtaken, or went away with a node above it, is not counted.

## Main definitions

* `Pass.Tallies`: The count grows by the timely nodes that are taken out.
* `Pass.Catches`: The sweep below a child counts like that.

## Theorems

* `Pass.tallies_evict`, `Pass.tallies_chooseBatch`: What an eviction counts.
* `Pass.tallies_merge`, `Pass.catches_diffNode`: What the second sweep counts.
* `Pass.tallies_removeDead`: The first sweep counts nothing.
* `Pass.run_relocates`: What a pass counts, and when these are all moved nodes.
-/

namespace TreeWatch

open Forest (Under)

namespace Pass

open Classical in
/-- The timely nodes in the rows that are about to go away. -/
noncomputable def timelyRows (live : Snapshot) (n : Notice) : List Handle :=
  n.removed.filter fun x => Timely live n.store x

theorem mem_timelyRows (live : Snapshot) (n : Notice) (x : Handle) :
    x ∈ timelyRows live n ↔ x ∈ n.removed ∧ Timely live n.store x := by
  simp only [timelyRows, List.mem_filter, decide_eq_true_eq]

/-- Between two moments of a step as many relocations were counted as there were timely
    nodes in the rows that were taken out. -/
def Tallies (live : Snapshot) (s s' : Step) : Prop :=
  ∃ trace, s'.trace = s.trace ++ trace ∧
    s'.report.relocated = s.report.relocated + (trace.flatMap (timelyRows live)).length

section Changes

variable (live : Snapshot) (s s' s'' : Step)

theorem Tallies.refl : Tallies live s s := ⟨[], (List.append_nil s.trace).symm, rfl⟩

theorem Tallies.trans (h : Tallies live s s') (h' : Tallies live s' s'') : Tallies live s s'' := by
  rcases h with ⟨before, hbefore, hcount⟩
  rcases h' with ⟨after, hafter, hcount'⟩
  refine ⟨before ++ after, by rw [hafter, hbefore, List.append_assoc], ?_⟩
  rw [hcount', hcount, List.flatMap_append, List.length_append, Nat.add_assoc]

open Classical in
/-- The timely rows can be looked up in one record if it agrees with those that are
    shown. -/
theorem timelyRows_eq (trace : List Notice) (t : Store)
    (hsame : ∀ n ∈ trace, ∀ x ∈ n.removed, (Timely live n.store x ↔ Timely live t x)) :
    trace.flatMap (timelyRows live) =
      (trace.flatMap Notice.removed).filter fun x => Timely live t x := by
  rw [List.filter_flatMap]
  refine List.flatMap_congr fun n hn => List.filter_congr fun x hx => ?_
  rw [decide_eq_decide]
  exact hsame n hn x hx

-- That is so if the rows go away from one record.
theorem timely_of_shown (trace : List Notice) (t : Store)
    (hshown : ∀ n ∈ trace, n.removed ≠ [] → n.store = t) :
    ∀ n ∈ trace, ∀ x ∈ n.removed, (Timely live n.store x ↔ Timely live t x) := by
  intro n hn x hx
  rw [hshown n hn (List.ne_nil_of_mem hx)]

open Classical in
/-- A removal of rows announces the timely ones among them, and does not count them. -/
theorem removeRows_timely (hs : s.store.Sound) (node : Handle) (front rows back : List Handle)
    (hn : s.store.contains node = true) (hne : rows ≠ [])
    (hkids : s.store.children node = front ++ rows ++ back)
    (hok : s.removeRows live.contains node front.length (front.length + rows.length - 1) =
      .ok s') :
    s'.report.relocated = s.report.relocated ∧ ∃ trace, s'.trace = s.trace ++ trace ∧
      trace.flatMap (timelyRows live) = rows.filter fun x => Timely live s.store x := by
  rcases removeRows_told live.contains s hs node front rows back hn hne hkids with
    ⟨m, i, gone, rfl, hrun, _, _, htrace, _⟩
  rw [hrun, Except.ok.injEq] at hok
  subst hok
  have hquiet := (quiet_farewell gone m.store).1
  refine ⟨s.removeRows_relocated _ _ _ _ m hrun, _, htrace, ?_⟩
  rw [timelyRows_eq live _ s.store (timely_of_shown live _ s.store
      (shown_removal i _ _ s.store m.store _ hquiet)),
    List.flatMap_append, removed_removal, hquiet, List.append_nil,
    s.store.rowsAt_eq i front rows back hkids hne]

/-- Rows that are not timely are removed without being counted. -/
theorem tallies_removeRows (hs : s.store.Sound) (node : Handle) (front rows back : List Handle)
    (hn : s.store.contains node = true) (hne : rows ≠ [])
    (hkids : s.store.children node = front ++ rows ++ back)
    (hlate : ∀ v ∈ rows, ¬ Timely live s.store v)
    (hok : s.removeRows live.contains node front.length (front.length + rows.length - 1) =
      .ok s') : Tallies live s s' := by
  rcases removeRows_timely live s s' hs node front rows back hn hne hkids hok with
    ⟨hcount, trace, htrace, htimely⟩
  refine ⟨trace, htrace, ?_⟩
  rw [htimely, hcount,
    List.filter_eq_nil_iff.mpr fun v hv => by simpa only [decide_eq_true_eq] using hlate v hv]
  rfl

/-- A timely node is counted when it is removed on its own. -/
theorem tallies_removeNode (hs : s.store.Sound) (h p : Handle) (hp : s.store.parent h = some p)
    (htimely : Timely live s.store h) (hok : s.removeNode live.contains h = .ok (true, s')) :
    Tallies live s
      { s' with report := { s'.report with relocated := s'.report.relocated + 1 } } := by
  rcases hs.rowOf?_of_parent s.store h p hp with ⟨front, back, hkids, hrow⟩
  have hpt := (s.store.contains_iff_held p).mpr (hs.tree.held_up h p hp)
  have hrun : s.removeRows live.contains p front.length (front.length + [h].length - 1) =
      .ok s' := by
    rw [List.length_singleton, Nat.add_sub_cancel]
    simp only [Step.removeNode, hp, hrow] at hok
    cases hrows : s.removeRows live.contains p front.length front.length with
    | error f => simp only [hrows, bind, Except.bind, reduceCtorEq] at hok
    | ok m =>
        simp only [hrows, bind, Except.bind, pure, Except.pure, Except.ok.injEq, Prod.mk.injEq,
          true_and] at hok
        rw [hok]
  rcases removeRows_timely live s s' hs p front [h] back hpt (List.cons_ne_nil h []) hkids hrun with
    ⟨hcount, trace, htrace, hrows⟩
  refine ⟨trace, htrace, ?_⟩
  rw [hrows, List.filter_cons_of_pos (by simpa only [decide_eq_true_eq] using htimely)]
  exact congrArg (· + 1) hcount

/-- An insertion counts nothing. -/
theorem tallies_insertRows (hs : s.store.Sound) (node : Handle) (first : Nat)
    (batch : List Handle) (fill : Snapshot) (hn : s.store.contains node = true)
    (hok : s.insertRows node first batch fill = .ok s') : Tallies live s s' := by
  have hcount := s.insertRows_relocated node first batch fill s' hok
  rcases insertRows_told s s' hs node first batch fill hn hok with
    rfl | ⟨i, _, _, htrace, _⟩
  · exact .refl live s'
  · have hnone := removed_insertion i first (first + batch.length - 1) s.store s'.store
    refine ⟨_, htrace, ?_⟩
    rw [timelyRows_eq live _ s.store (timely_of_shown live _ s.store fun n hn hne =>
      absurd (List.flatMap_eq_nil_iff.mp hnone n hn) hne), hnone, hcount]
    rfl

/-- A timely node is counted when it is moved. -/
theorem tallies_relocate (hlive : live.Proper) (h node : Handle)
    (hst : Stray live s.store h node) (htimely : Timely live s.store h)
    (hok : s.relocate h node = .ok (true, s')) : Tallies live s s' := by
  rcases hst.movable live s.store hlive h node with ⟨q, hq, hn, hnh, hne⟩
  rcases relocate_told s hst.fits.sound h node q hq hn hnh hne with
    ⟨m, i, j, front, back, front', back', _, _, hrun, _, _, _, hkids, _, htrace, _, hcount⟩
  rw [hrun, Except.ok.injEq, Prod.mk.injEq] at hok
  rcases hok with ⟨_, rfl⟩
  have hrows : s.store.rowsAt (some i) front.length (front.length + 1 - 1) = [h] :=
    s.store.rowsAt_eq i front [h] back hkids (List.cons_ne_nil h [])
  refine ⟨_, htrace, ?_⟩
  rw [timelyRows_eq live _ s.store (timely_of_shown live _ s.store
      (shown_removal i _ _ s.store _ _ (removed_insertion j _ _ _ m.store))),
    List.flatMap_append, removed_removal, removed_insertion, List.append_nil, hrows,
    List.filter_cons_of_pos (by simpa only [decide_eq_true_eq] using htimely), hcount]
  rfl

end Changes

section Eviction

variable (live : Snapshot) (hlive : live.Proper) (node : Handle) (done batch back : List Handle)

include hlive

/-- An eviction counts what it takes out. The induction is on the nodes that are left
    of a walk through what is live below the batch. What the walk has visited is not
    tracked any more, so the next node to be taken out is timely. -/
theorem tallies_evict (before nodes tail : List Handle)
    (hsplit : batch.flatMap live.descendants = before ++ nodes) (flag : Bool) (s : Step)
    (hm : Merging live node done (batch ++ back) tail s.store) (hswept : Swept live node s.store)
    (hfront : ∀ b ∈ batch, ∀ x ∈ tail, b < x) (hnew : ∀ b ∈ batch, s.store.contains b = false)
    (hgone : ∀ v ∈ before, s.store.contains v = false) (out : Bool × Step)
    (hok : nodes.foldlM (Step.evictNode live.contains) (flag, s) = .ok out) :
    Tallies live s out.2 := by
  induction nodes generalizing before tail flag s with
  | nil =>
      rw [List.foldlM_nil] at hok
      exact Except.ok.inj hok ▸ .refl live s
  | cons h nodes ih =>
      rw [List.foldlM_cons] at hok
      have hmem : h ∈ batch.flatMap live.descendants := by
        rw [hsplit]
        exact List.mem_append_right before List.mem_cons_self
      have hsplit' : batch.flatMap live.descendants = (before ++ [h]) ++ nodes := by
        rw [hsplit, List.append_assoc, List.singleton_append]
      have hvisited : ∀ t : Store, (∀ v ∈ before, t.contains v = false) → t.contains h = false →
          ∀ v ∈ before ++ [h], t.contains v = false := by
        intro t hbefore hh v hv
        rcases List.mem_append.mp hv with hv | hv
        · exact hbefore v hv
        · exact List.mem_singleton.mp hv ▸ hh
      rcases List.mem_flatMap.mp hmem with ⟨b, hb, hhb⟩
      cases hp : s.store.parent h with
      | none =>
          rw [Step.evictNode_none live.contains flag s h hp] at hok
          exact ih (before ++ [h]) tail hsplit' flag s hm hswept hfront hnew
            (hvisited s.store hgone (hm.fits.untracked_below live s.store hlive b h hhb hp)) hok
      | some p =>
          have hs := hm.fits.sound
          have hlb : live.parent b = some node := by
            rw [← hlive.tree.mem_kids, hm.wanted_eq]
            exact List.mem_append_right done (List.mem_append_left back hb)
          have hun := hm.fits.unplaced_below live s.store hlive b h (hnew b hb)
            (hlive.contains_of_parent live b node hlb).1 hhb
          -- Nothing that is still tracked was visited, so the walk takes this node in time.
          have htimely := Merging.timely_below live hlive node done tail s.store batch back hm
            hswept b h hb hhb p hp (hfront b hb) (Merging.not_ahead live hlive node done tail s.store
              batch back hm before nodes h hsplit hnew hgone)
          rcases Spare.removeNode live s hs h p hp hun with ⟨s₁, hrem, _, hcut⟩
          rw [Step.evictNode_some live.contains flag s s₁ h p hp hrem] at hok
          have hadv := advances_of_cut live s.store s₁.store node _ hcut hun
          rcases hm.advance live hlive node done (batch ++ back) tail s s₁.store node hcut.sound
            hadv fun c hc => (hcut.links.up_of_up c node hc).1 with ⟨tail', hm', hsub⟩
          have hkept : ∀ v, s.store.contains v = false → s₁.store.contains v = false :=
            fun v hv => (hcut.not_contains_iff v).mpr (Or.inl hv)
          have hhs : s₁.store.contains h = false :=
            (hcut.not_contains_iff h).mpr (Or.inr (Under.refl h))
          refine (tallies_removeNode live s s₁ hs h p hp htimely hrem).trans live _ _ _ ?_
          exact ih (before ++ [h]) tail' hsplit' true _ hm'
            (hswept.advance live hlive node s.store s₁.store node hs hcut.sound hadv)
            (fun b hb x hx => hfront b hb x (hsub x hx)) (fun b hb => hkept b (hnew b hb))
            (hvisited s₁.store (fun v hv => hkept v (hgone v hv)) hhs) hok

end Eviction

section Choice

variable (live : Snapshot) (hlive : live.Proper) (node h : Handle) (done rest : List Handle)

include hlive

/-- One round of the choice of a batch: what it evicts is counted, and the merge is at a
    later moment. -/
theorem tallies_round (tail : List Handle) (s : Step)
    (hm : Merging live node done (h :: rest) tail s.store) (hswept : Swept live node s.store)
    (hfirst : ∀ x ∈ tail, h < x) (hh : s.store.contains h = false) :
    ∃ flag s' tail',
      s.evictTracked live.contains
        (freshRun s.store (s.store.children node)[done.length]? (h :: rest)) live =
          .ok (flag, s') ∧
      Tallies live s s' ∧ Merging live node done (h :: rest) tail' s'.store ∧
      Swept live node s'.store ∧ (∀ x ∈ tail', h < x) ∧ s'.store.contains h = false := by
  have hasc : Handle.Ascending tail :=
    (List.pairwise_append.mp (hm.ascending_kids live node done (h :: rest) tail s)).2.1
  rw [hm.next_row live node done (h :: rest) tail s]
  rcases freshRun_spec h rest s.store tail hasc hfirst hh with
    ⟨more, back, hbatch, hsplit, hall, _⟩
  rw [hbatch]
  have hbatchlive : ∀ b ∈ h :: more, s.store.contains b = false ∧ live.contains b = true := by
    intro b hb
    refine ⟨(hall b hb).1, (hlive.contains_of_parent live b node ?_).1⟩
    rw [← hlive.tree.mem_kids, hm.wanted_eq, hsplit]
    exact List.mem_append_right done (List.mem_append_left back hb)
  rcases hm.evict live hlive node done (h :: rest) tail s (h :: more) hbatchlive with
    ⟨flag, s', tail', hrun, hworks, hadv, hm', hsub, hcut, _⟩
  have htallies := tallies_evict live hlive node done (h :: more) back [] _ tail rfl false s
    (hsplit ▸ hm) hswept (fun b hb => (hall b hb).2) (fun b hb => (hall b hb).1)
    (fun v hv => absurd hv List.not_mem_nil) (flag, s') hrun
  exact ⟨flag, s', tail', hrun, htallies, hm',
    hswept.advance live hlive node s.store s'.store node hm.fits.sound hworks.sound hadv,
    fun x hx => hfirst x (hsub x hx), (hcut.not_contains_iff h).mpr (Or.inl hh)⟩

/-- The choice of a batch counts what its rounds evict. -/
theorem tallies_chooseBatch (rounds : Nat) (tail : List Handle) (s : Step)
    (hm : Merging live node done (h :: rest) tail s.store) (hswept : Swept live node s.store)
    (hfirst : ∀ x ∈ tail, h < x) (hh : s.store.contains h = false) (out : List Handle × Step)
    (hok : chooseBatch live node done.length (h :: rest) rounds s = .ok out) :
    Tallies live s out.2 := by
  induction rounds generalizing tail s with
  | zero =>
      rcases tallies_round live hlive node h done rest tail s hm hswept hfirst hh with
        ⟨flag, s', tail', hrun, htallies, _⟩
      simp only [chooseBatch, hrun, bind, Except.bind, pure, Except.pure, Except.ok.injEq] at hok
      exact hok ▸ htallies
  | succ rounds ih =>
      rcases tallies_round live hlive node h done rest tail s hm hswept hfirst hh with
        ⟨flag, s', tail', hrun, htallies, hm', hswept', hfirst', hh'⟩
      rw [chooseBatch] at hok
      simp only [hrun, bind, Except.bind, pure, Except.pure] at hok
      cases flag with
      | false =>
          rw [if_neg Bool.false_ne_true, Except.ok.injEq] at hok
          exact hok ▸ htallies
      | true =>
          rw [if_pos rfl] at hok
          exact htallies.trans live _ _ _ (ih tail' s' hm' hswept' hfirst' hh' hok)

end Choice

/-- The sweep below `h` counts the timely nodes that it takes out, whichever of the
    variants of the sweep is taken. -/
def Catches (live : Snapshot) (descend : Bool → Handle → Step → Except Fault Step) (h : Handle) :
    Prop :=
  ∀ b s s', Fits live s.store → live.contains h = true → Placed live s.store h →
    Swept live h s.store → descend b h s = .ok s' → Tallies live s s'

section Sweep

variable (live : Snapshot) (hlive : live.Proper) (node : Handle)

include hlive

/-- Recorded children that are passed or left over are not counted. -/
theorem tallies_passed (done wanted tail rows back : List Handle) (s s' : Step)
    (hm : Merging live node done wanted tail s.store) (hswept : Swept live node s.store)
    (htail : tail = rows ++ back) (hne : rows ≠ []) (hpass : ∀ v ∈ rows, ∀ w ∈ wanted, v < w)
    (hok : s.removeRows live.contains node done.length (done.length + rows.length - 1) = .ok s') :
    Tallies live s s' := by
  have hs := hm.fits.sound
  have hkids : s.store.children node = done ++ rows ++ back := by
    rw [hm.kids_eq, htail, List.append_assoc]
  have hn := hm.tracked live hlive node done wanted tail s
  refine tallies_removeRows live s s' hs node done rows back hn hne hkids (fun v hv ht => ?_) hok
  have hvp : s.store.parent v = some node := by
    rw [← hs.tree.mem_kids, hkids]
    exact List.mem_append_left back (List.mem_append_right done hv)
  rcases ht with ⟨⟨_, hlv, hmoved⟩, htime⟩
  exact htime node hvp (hm.overtaken live hlive node done wanted tail s.store hswept v hvp hlv
    (fun he => hmoved (hvp.trans he.symm)) (hpass v hv))

/-- Those that the wanted child has passed. -/
theorem tallies_pass (h : Handle) (done rest tail : List Handle) (s s' : Step)
    (hm : Merging live node done (h :: rest) tail s.store) (hswept : Swept live node s.store)
    (hok : (if (tail.takeWhile (· < h)).isEmpty then .ok s
      else s.removeRows live.contains node done.length
        (done.length + (tail.takeWhile (· < h)).length - 1)) = .ok s') : Tallies live s s' := by
  by_cases hempty : (tail.takeWhile (· < h)).isEmpty = true
  · rw [if_pos hempty, Except.ok.injEq] at hok
    exact hok ▸ .refl live s
  · rw [if_neg hempty] at hok
    refine tallies_passed live hlive node done (h :: rest) tail _ (tail.dropWhile (· < h)) s s' hm
      hswept List.takeWhile_append_dropWhile.symm (mt List.isEmpty_iff.mpr hempty)
      (fun v hv w hw => ?_) hok
    have hlt : v < h := of_decide_eq_true (List.mem_takeWhile_imp (p := (· < h)) hv)
    have hasc :=
      (List.pairwise_append.mp (hm.ascending_wanted live hlive node h done rest tail s)).2.1
    rcases List.mem_cons.mp hw with rfl | hw
    · exact hlt
    · exact hlt.trans ((List.pairwise_cons.mp hasc).1 w hw)

/-- Those that are left over when all wanted children are dealt with. -/
theorem tallies_rest (tail : List Handle) (s s' : Step)
    (hm : Merging live node (live.children node) [] tail s.store)
    (hswept : Swept live node s.store)
    (hok : (if (live.children node).length < (s.store.children node).length then
        s.removeRows live.contains node (live.children node).length
          ((s.store.children node).length - 1)
      else .ok s) = .ok s') : Tallies live s s' := by
  rw [hm.kids_eq, List.length_append] at hok
  by_cases hnil : tail = []
  · subst hnil
    rw [List.length_nil, Nat.add_zero, if_neg (Nat.lt_irrefl _), Except.ok.injEq] at hok
    exact hok ▸ .refl live s
  · have hpos : 0 < tail.length := List.length_pos_iff.mpr hnil
    rw [if_pos (by omega)] at hok
    exact tallies_passed live hlive node (live.children node) [] tail tail [] s s' hm hswept
      (List.append_nil tail).symm hnil (fun _ _ _ hw => absurd hw List.not_mem_nil) hok

section Descent

variable (descend : Bool → Handle → Step → Except Fault Step)
  (hdescend : ∀ c, live.parent c = some node → Descends live descend c)
  (hcatches : ∀ c, live.parent c = some node → Catches live descend c)

include hdescend hcatches

/-- A child in its row is swept, and the merge goes on behind it. -/
theorem tallies_of_swept (b : Bool) (bound : Nat) (h : Handle) (done rest tail : List Handle)
    (s : Step) (out : Nat × Step) (hm : Merging live node done (h :: rest) (h :: tail) s.store)
    (hswept : Swept live node s.store) (htail : ∀ x ∈ h :: tail, h ≤ x)
    (hrest : ∀ tail' m, Merging live node (done ++ [h]) rest tail' m.store →
      Swept live node m.store →
      mergeChildren (descend b) live node bound rest (done ++ [h]).length m = .ok out →
      Tallies live m out.2)
    (hok : (do
      let s ← descend b h s
      mergeChildren (descend b) live node bound rest (done.length + 1) s) = .ok out) :
    Tallies live s out.2 := by
  have hs := hm.fits.sound
  have hlh := hm.parent_next live hlive node h done rest (h :: tail) s
  have hsh : s.store.parent h = some node := by
    rw [← hs.tree.mem_kids, hm.kids_eq]
    exact List.mem_append_right done List.mem_cons_self
  have hplaced := Placed.child live s.store h node hm.placed hlh hsh
  have hswept' := hswept.child live hlive node done (h :: tail) s.store h rest hm htail
  rcases Merging.descend live hlive node h done rest tail s descend hm (hdescend h hlh) with
    ⟨s₁, tail₁, hrun, hworks, hadv, hm₁⟩
  have hbelow := hcatches h hlh b s s₁ hm.fits (hlive.contains_of_parent live h node hlh).1 hplaced
    hswept' (hrun b)
  simp only [hrun b, bind, Except.bind] at hok
  rw [← List.length_singleton (a := h), ← List.length_append] at hok
  exact hbelow.trans live _ _ _ (hrest tail₁ s₁ hm₁
    (hswept.advance live hlive node s.store s₁.store node hs hworks.sound hadv) hok)

/-- A wanted child that is tracked elsewhere is moved to its row and swept there. -/
theorem tallies_of_moved (b : Bool) (bound : Nat) (h : Handle) (done rest tail : List Handle)
    (s : Step) (out : Nat × Step) (hm : Merging live node done (h :: rest) tail s.store)
    (hswept : Swept live node s.store) (htail : ∀ x ∈ tail, h < x)
    (hh : s.store.contains h = true)
    (hrest : ∀ tail' m, Merging live node (done ++ [h]) rest tail' m.store →
      Swept live node m.store →
      mergeChildren (descend b) live node bound rest (done ++ [h]).length m = .ok out →
      Tallies live m out.2)
    (hok : (do
      let (moved, s) ← s.relocate h node
      if moved then
        let s ← descend b h s
        mergeChildren (descend b) live node bound rest (done.length + 1) s
      else mergeChildren (descend b) live node bound rest done.length s) = .ok out) :
    Tallies live s out.2 := by
  have hs := hm.fits.sound
  have hst := hm.stray live hlive node h done rest tail s htail hh
  have htimely :=
    hm.timely_next live hlive node done tail s.store h rest hswept hh hst.elsewhere
  rcases hm.relocate live hlive node h done rest tail s htail hh with
    ⟨s₁, hrun, hworks, hadv, hm₁⟩
  simp only [if_true, hrun, bind, Except.bind] at hok
  have hmoved := tallies_relocate live s s₁ hlive h node hst htimely hrun
  have hswept₁ := hswept.advance live hlive node s.store s₁.store node hs hworks.sound hadv
  refine hmoved.trans live _ _ _ (tallies_of_swept live hlive node descend hdescend hcatches b bound
    h done rest tail s₁ out hm₁ hswept₁ (fun x hx => ?_) hrest hok)
  rcases List.mem_cons.mp hx with rfl | hx
  · exact le_refl x
  · exact le_of_lt (htail x hx)

omit hdescend hcatches in
/-- A new child is inserted with others like it after what is in the way was evicted. -/
theorem tallies_of_fresh (b : Bool) (bound : Nat) (h : Handle) (done rest tail : List Handle)
    (s : Step) (out : Nat × Step) (hm : Merging live node done (h :: rest) tail s.store)
    (hswept : Swept live node s.store) (htail : ∀ x ∈ tail, h < x)
    (hh : s.store.contains h = false)
    (hrest : ∀ batch back tail' m, Merging live node (done ++ batch) back tail' m.store →
      Swept live node m.store →
      mergeChildren (descend b) live node bound back (done ++ batch).length m = .ok out →
      Tallies live m out.2)
    (hok : (do
      let (batch, s) ← chooseBatch live node done.length (h :: rest) s.store.size s
      let s ← s.insertRows node done.length batch live
      mergeChildren (descend b) live node bound ((h :: rest).drop batch.length)
        (done.length + batch.length) s) = .ok out) : Tallies live s out.2 := by
  have hs := hm.fits.sound
  rcases chooseBatch_spec live hlive node h done rest s.store.size tail s hm htail hh
    (ncard_tracked_le s.store) with
    ⟨batch, back, s₁, tail₁, hrun₁, hworks₁, hadv₁, hm₁, hsplit, hne, hnew, hfit, hbelow, hnext⟩
  rcases hm₁.insert live hlive node done (h :: rest) tail₁ s₁ batch back hsplit hne hnew hfit
    hbelow hnext with ⟨s₂, hrun₂, hworks₂, hadv₂, hm₂⟩
  simp only [hrun₁, bind, Except.bind, hrun₂] at hok
  rw [hsplit, List.drop_left, ← List.length_append] at hok
  have hchosen := tallies_chooseBatch live hlive node h done rest _ tail s hm hswept htail hh _ hrun₁
  have hn := hm₁.tracked live hlive node done (h :: rest) tail₁ s₁
  have hcame := tallies_insertRows live s₁ s₂ hworks₁.sound node _ batch live hn hrun₂
  have hswept₁ := hswept.advance live hlive node s.store s₁.store node hs hworks₁.sound hadv₁
  have hswept₂ := hswept₁.advance live hlive node s₁.store s₂.store node hworks₁.sound hworks₂.sound
    hadv₂
  exact hchosen.trans live _ _ _ (hcame.trans live _ _ _ (hrest batch back tail₁ s₂ hm₂ hswept₂ hok))

/-- A merge counts the timely nodes that it takes out. The induction is on the bound
    on the wanted children that are left. -/
theorem tallies_merge (b : Bool) (bound : Nat) (done wanted tail : List Handle) (s : Step)
    (hm : Merging live node done wanted tail s.store) (hswept : Swept live node s.store)
    (out : Nat × Step)
    (hok : mergeChildren (descend b) live node bound wanted done.length s = .ok out) :
    Tallies live s out.2 := by
  induction bound generalizing done wanted tail s with
  | zero =>
      rw [mergeChildren, Except.ok.injEq] at hok
      exact hok ▸ .refl live s
  | succ bound ih =>
      cases wanted with
      | nil =>
          rw [mergeChildren, Except.ok.injEq] at hok
          exact hok ▸ .refl live s
      | cons h rest =>
          -- What the wanted child has passed goes first.
          rcases hm.pass live hlive node h done rest tail s with
            ⟨s₁, tail₁, hrun, hworks, hadv, hm₁, hle⟩
          have hpassed := tallies_pass live hlive node h done rest tail s s₁ hm hswept hrun
          have hswept₁ := hswept.advance live hlive node s.store s₁.store node hm.fits.sound
            hworks.sound hadv
          refine hpassed.trans live _ _ _ ?_
          rw [mergeChildren_cons live node (descend b) bound h done rest tail s s₁ hm.kids_eq hrun,
            hm₁.next_row live node done (h :: rest) tail₁ s₁] at hok
          have hasc : Handle.Ascending tail₁ :=
            (List.pairwise_append.mp (hm₁.ascending_kids live node done (h :: rest) tail₁ s₁)).2.1
          rcases first_or_before h tail₁ hasc hle with ⟨tail₂, rfl⟩ | htail
          · simp only [List.getElem?_cons_zero, if_true] at hok
            exact tallies_of_swept live hlive node descend hdescend hcatches b bound h done rest
              tail₂ s₁ out hm₁ hswept₁ hle (fun tail' m => ih (done ++ [h]) rest tail' m) hok
          · have hhead : tail₁[0]? ≠ some h := fun hhead =>
              lt_irrefl h (htail h (List.mem_of_getElem? hhead))
            rw [if_neg hhead] at hok
            cases hh : s₁.store.contains h with
            | true =>
                rw [if_pos hh] at hok
                exact tallies_of_moved live hlive node descend hdescend hcatches b bound h done rest
                  tail₁ s₁ out hm₁ hswept₁ htail hh (fun tail' m => ih (done ++ [h]) rest tail' m)
                  hok
            | false =>
                rw [if_neg (by rw [hh]; exact Bool.false_ne_true)] at hok
                exact tallies_of_fresh live hlive node descend b bound h done rest tail₁ s₁ out hm₁
                  hswept₁ htail hh (fun batch back tail' m => ih (done ++ batch) back tail' m) hok

end Descent

/-- The second sweep below a node counts the timely nodes that it takes out. -/
theorem catches_diffNode (depth : Nat) (hdepth : Forest.weight live.parent node ≤ depth) :
    Catches live (fun b => diffNode b live depth) node := by
  induction depth generalizing node with
  | zero =>
      have hpos := Forest.weight_pos live.parent node
      omega
  | succ depth ih =>
      intro b s s' hfits hn hplaced hswept hok
      have hstart : Merging live node [] (live.children node) (s.store.children node) s.store :=
        ⟨hfits, hn, hplaced, rfl, rfl, fun c hc => absurd hc List.not_mem_nil⟩
      have hweight : ∀ c, live.parent c = some node → Forest.weight live.parent c ≤ depth := by
        intro c hc
        have hlt := hlive.tree.weight_lt c node hc
        omega
      have hdescend := fun c hc => diffNode_spec live hlive c depth (hweight c hc)
      have hcatches := fun c hc => ih c (hweight c hc)
      rcases mergeChildren_spec live hlive node _ hdescend _ [] _ _ s hstart (Nat.le_refl _) with
        ⟨s₁, tail, hrun₁, hworks₁, hadv₁, hm₁⟩
      rcases hm₁.remove_rest live hlive node tail s₁ with ⟨s₂, hrun₂, _, _, hm₂⟩
      have hkids : s₂.store.children node = live.children node :=
        hm₂.kids_eq.trans (List.append_nil _)
      have hsame : s₂ = s' := Except.ok.inj
        ((diffNode_of_merge live node b depth s s₁ s₂ (hrun₁ b) hrun₂ hkids).symm.trans hok)
      subst hsame
      have hswept₁ := hswept.advance live hlive node s.store s₁.store node hfits.sound
        hworks₁.sound hadv₁
      exact (tallies_merge live hlive node _ hdescend hcatches b _ [] _ _ s hstart hswept _
        (hrun₁ b)).trans live _ _ _ (tallies_rest live hlive node tail s₁ s₂ hm₁ hswept₁ hrun₂)

end Sweep

section Rows

variable (live : Snapshot)

-- Of an act, only the first half of a removal is about rows that go away.
theorem taken_of_removal (i : Index) (first last : Nat) (s t : Store) (rest : List Notice)
    (hrest : rest.flatMap Notice.removed = []) :
    ∀ n ∈ removal i first last s t ++ rest, n.removed ≠ [] →
      ∃ e, n.taken = some (e, n.removed) := by
  intro n hn hne
  rcases List.mem_append.mp hn with hn | hn
  · rcases List.mem_pair.mp hn with rfl | rfl
    · exact ⟨_, rfl⟩
    · exact absurd rfl hne
  · exact absurd (List.flatMap_eq_nil_iff.mp hrest n hn) hne

/-- What an act takes out goes with an edit. -/
theorem Act.taken (s t : Store) (trace : List Notice) (h : Act live s trace t) :
    ∀ n ∈ trace, n.removed ≠ [] → ∃ e, n.taken = some (e, n.removed) := by
  cases h with
  | removal _ i front rows back gone _ _ _ =>
      exact taken_of_removal i _ _ s t _ (quiet_farewell gone t).1
  | move _ i j h front back front' back' _ _ _ _ _ _ =>
      exact taken_of_removal i _ _ s _ _ (removed_insertion j _ _ _ t)
  | insertion _ i front batch back _ _ _ =>
      exact fun n hn hne =>
        absurd (List.flatMap_eq_nil_iff.mp (removed_insertion i _ _ s t) n hn) hne

/-- So does what a course takes out. -/
theorem Course.taken (s t : Store) (trace : List Notice) (h : Course live s trace t) :
    ∀ n ∈ trace, n.removed ≠ [] → ∃ e, n.taken = some (e, n.removed) := by
  induction h with
  | nil s => exact fun n hn => absurd hn List.not_mem_nil
  | cons s t u trace rest act _ ih =>
      intro n hn
      rcases List.mem_append.mp hn with hn | hn
      · exact act.taken live s t trace n hn
      · exact ih n hn

-- A fold counts no relocations if none of its rounds does.
theorem relocated_foldlM {α : Type} (f : Step → α → Except Fault Step)
    (hf : ∀ s x s', f s x = .ok s' → s'.report.relocated = s.report.relocated) (xs : List α)
    (s s' : Step) (hok : xs.foldlM f s = .ok s') : s'.report.relocated = s.report.relocated := by
  induction xs generalizing s with
  | nil =>
      rw [List.foldlM_nil] at hok
      exact congrArg (·.report.relocated) (Except.ok.inj hok).symm
  | cons x xs ih =>
      rw [List.foldlM_cons] at hok
      cases hx : f s x with
      | error e => simp only [hx, bind, Except.bind, reduceCtorEq] at hok
      | ok m =>
          simp only [hx, bind, Except.bind] at hok
          exact (ih m hok).trans (hf s x m hx)

-- The first sweep removes rows and does nothing else.
theorem removeDead_relocated (depth : Nat) (node : Handle) (s s' : Step)
    (hok : removeDead live depth node s = .ok s') :
    s'.report.relocated = s.report.relocated := by
  induction depth generalizing node s s' with
  | zero =>
      rw [removeDead, Except.ok.injEq] at hok
      exact hok ▸ rfl
  | succ depth ih =>
      rw [removeDead] at hok
      cases hkids : ((s.store.children node).filter live.contains).foldlM
          (fun s c => removeDead live depth c s) s with
      | error e => simp only [hkids, bind, Except.bind, reduceCtorEq] at hok
      | ok m =>
          simp only [hkids, bind, Except.bind] at hok
          exact (relocated_foldlM _ (fun s run s' => s.removeRows_relocated _ node run.1 run.2 s')
            _ m s' hok).trans (relocated_foldlM _ (fun s c s' => ih c s s') _ s m hkids)

/-- The first sweep counts nothing, because no dead node is timely. -/
theorem tallies_removeDead (s s' : Step) (hs : s.store.Sound) (depth : Nat) (node : Handle)
    (hok : removeDead live depth node s = .ok s') (hworks : Works live s s')
    (htook : Took s s' (deadRows live s.store.children depth node)) : Tallies live s s' := by
  rcases hworks.course with ⟨trace, htrace, hcourse, _⟩
  rcases htook with ⟨trace', htrace', htaken⟩
  have hsame : trace' = trace := List.append_cancel_left (htrace'.symm.trans htrace)
  subst hsame
  have hnone : trace'.flatMap (timelyRows live) = [] := by
    refine List.flatMap_eq_nil_iff.mpr fun n hn => List.eq_nil_iff_forall_not_mem.mpr fun x hx => ?_
    rcases (mem_timelyRows live n x).mp hx with ⟨hxn, htimely⟩
    rcases hcourse.taken live _ _ trace' n hn (List.ne_nil_of_mem hxn) with ⟨e, he⟩
    have hmem : (e, n.removed) ∈ trace'.filterMap Notice.taken :=
      List.mem_filterMap.mpr ⟨n, hn, he⟩
    rw [htaken] at hmem
    rcases List.mem_map.mp hmem with ⟨r, hr, hre⟩
    rcases (of_mem_deadRows live s.store hs depth node r hr).2.1 with ⟨_, _, _, hmax⟩
    have hrows : r.handles = n.removed := congrArg Prod.snd hre
    have hdead := hmax.inside x (hrows ▸ hxn)
    rw [htimely.1.2.1] at hdead
    exact Bool.noConfusion hdead
  refine ⟨trace', htrace', ?_⟩
  rw [hnone, removeDead_relocated live depth node s s' hok]
  rfl

end Rows

section Run

variable (live : Snapshot) (hlive : live.Proper)

include hlive

/-- A pass that keeps the root counts the timely nodes that it takes out. -/
theorem run_tallies (s : Step) (hs : s.store.Sound) (hroot : s.store.root = live.root) :
    ∃ s', (∀ b, run b live s = .ok s') ∧ Works live s s' ∧ Tallies live s s' := by
  rcases run_sweeps live hlive s hs hroot with
    ⟨s₁, s', hrun, hworks₁, hworks₂, hfits, htook, _, hsame, hsweeps⟩
  refine ⟨s', hrun, hworks₁.trans live _ _ _ hworks₂, ?_⟩
  cases hr : s.store.root with
  | none => exact hsame hr ▸ .refl live s
  | some r =>
      have hlr := hroot.symm.trans hr
      have hrl : live.contains r = true := (hlive.contains_iff r).mpr (Or.inl hlr)
      rcases hsweeps r hr with ⟨hfirst, hsecond⟩
      rw [hr, Option.toList_some, List.flatMap_singleton] at htook
      have hplaced := hfits.placed_root live hlive r hlr
      exact (tallies_removeDead live s s₁ hs _ r hfirst hworks₁ htook).trans live _ _ _
        (catches_diffNode live hlive r live.size (root_weight_le live hlive r hlr) true s₁ s' hfits
          hrl hplaced (swept_root live hlive r s₁.store hlr) (hsecond true))

end Run

/-- A pass that keeps the root counts the moved nodes that are timely and in a row of
    their own when they are taken out. These are not more than all moved nodes, and they
    are all moved nodes only if no moved node was overtaken or went away with a node
    above it. -/
theorem run_relocates (s : Store) (hs : s.check = none) (live : Snapshot) (hlive : live.Built)
    (hroot : s.root = live.root) (isStrict : Bool) :
    ∃ s', run isStrict live { store := s } = .ok s' ∧
      s'.report.relocated = {x | Timely live s x ∧ ∃ n ∈ s'.trace, x ∈ n.removed}.ncard ∧
      s'.report.relocated ≤ {x | Moved live s x}.ncard ∧
      (s'.report.relocated = {x | Moved live s x}.ncard ↔
        ∀ x, Moved live s x → Timely live s x ∧ ∃ n ∈ s'.trace, x ∈ n.removed) := by
  have hproper := hlive.proper live
  have hsound := s.check_eq_none_iff_sound.mp hs
  rcases run_tallies live hproper { store := s } hsound hroot with
    ⟨s', hrun, hworks, trace, htrace, hcount⟩
  rcases hworks.course with ⟨trace', htrace', hcourse, _⟩
  rw [List.nil_append] at htrace htrace'
  subst htrace htrace'
  have hdeparts := hcourse.departs live hproper s s'.store s'.trace
  -- A row is shown with the parent it had before the pass, so it is timely then if it was before.
  have htimely : ∀ n ∈ s'.trace, ∀ x ∈ n.removed, (Timely live n.store x ↔ Timely live s x) := by
    intro n hn x hx
    rcases hdeparts.row n hn x hx with ⟨⟨hsx, _⟩, hp, hsame⟩
    rcases Option.ne_none_iff_exists'.mp hp with ⟨p, hp⟩
    have hnx := (n.store.contains_iff x).mpr (Or.inr ⟨p, hsame.trans hp⟩)
    simp only [Timely, Moved, hsame, hsx, hnx]
  have hcounted : s'.report.relocated =
      {x | Timely live s x ∧ ∃ n ∈ s'.trace, x ∈ n.removed}.ncard := by
    rw [timelyRows_eq live s'.trace s htimely, Nat.zero_add] at hcount
    rw [hcount, Forest.ncard_eq_length _ _ (hdeparts.nodup.filter _) fun x => ?_]
    simp only [List.mem_filter, decide_eq_true_eq, List.mem_flatMap]
    exact and_comm
  have hsub : {x | Timely live s x ∧ ∃ n ∈ s'.trace, x ∈ n.removed} ⊆ {x | Moved live s x} :=
    fun x hx => hx.1.1
  refine ⟨s', hrun isStrict, hcounted, hcounted ▸ Set.ncard_le_ncard hsub, ?_⟩
  rw [hcounted]
  constructor
  · intro hall x hx
    have hset := Set.eq_of_subset_of_ncard_le hsub (le_of_eq hall.symm)
    exact (hset ▸ hx : x ∈ {x | Timely live s x ∧ ∃ n ∈ s'.trace, x ∈ n.removed})
  · intro hall
    exact congrArg Set.ncard (Set.Subset.antisymm hsub hall)

/-- Two branches with a leaf each. -/
def twoBranches : Store :=
  let two := [2, 3].foldl (fun s n => s.link ⟨1⟩ ⟨n⟩) (Store.ofRoot (some ⟨1⟩))
  (two.link ⟨2⟩ ⟨4⟩).link ⟨3⟩ ⟨5⟩

/-- The same with the leaves exchanged. -/
def exchanged : Snapshot := .ofEdges ⟨1⟩ [(⟨1⟩, ⟨2⟩), (⟨1⟩, ⟨3⟩), (⟨2⟩, ⟨5⟩), (⟨3⟩, ⟨4⟩)]

theorem check_twoBranches : twoBranches.check = none := by decide +kernel

theorem root_twoBranches : twoBranches.root = exchanged.root := by decide +kernel

-- A pass that exchanges the leaves counts one relocation.
theorem relocated_of_exchanged (s' : Step)
    (hrun : run true exchanged { store := twoBranches } = .ok s') : s'.report.relocated = 1 := by
  have hcount : (run true exchanged { store := twoBranches }).toOption.map (·.report.relocated) =
      some 1 := by
    decide +kernel
  rw [hrun] at hcount
  exact Option.some.inj hcount

-- The one leaf is moved. The other is overtaken, comes back as a new node and is not counted.
theorem run_relocates_of_exchanged :
    twoBranches.check = none ∧ twoBranches.root = exchanged.root ∧
      ∃ s', run true exchanged { store := twoBranches } = .ok s' ∧ s'.report.relocated = 1 ∧
        s'.report.relocated =
          {x | Timely exchanged twoBranches x ∧ ∃ n ∈ s'.trace, x ∈ n.removed}.ncard ∧
        s'.report.relocated ≤ {x | Moved exchanged twoBranches x}.ncard ∧
        (s'.report.relocated = {x | Moved exchanged twoBranches x}.ncard ↔
          ∀ x, Moved exchanged twoBranches x →
            Timely exchanged twoBranches x ∧ ∃ n ∈ s'.trace, x ∈ n.removed) := by
  rcases run_relocates twoBranches check_twoBranches exchanged (.ofEdges ⟨1⟩ _) root_twoBranches
    true with ⟨s', hrun, hparts⟩
  exact ⟨check_twoBranches, root_twoBranches, s', hrun, relocated_of_exchanged s' hrun, hparts⟩

-- So the count is not that of all moved nodes.
theorem not_run_counts_moved :
    ¬ ∀ (s : Store) (live : Snapshot), s.check = none → live.Built → s.root = live.root →
      ∀ isStrict : Bool, ∃ s', run isStrict live { store := s } = .ok s' ∧
        s'.report.relocated = {x | Moved live s x}.ncard := by
  intro hall
  rcases hall twoBranches exchanged check_twoBranches (.ofEdges ⟨1⟩ _) root_twoBranches true with
    ⟨s', hrun, hone⟩
  rw [relocated_of_exchanged s' hrun] at hone
  -- Both leaves have moved.
  rcases Set.ncard_eq_one.mp hone.symm with ⟨a, ha⟩
  have hleft : (⟨4⟩ : Handle) ∈ {x | Moved exchanged twoBranches x} :=
    ⟨by decide +kernel, by decide +kernel, by decide +kernel⟩
  have hright : (⟨5⟩ : Handle) ∈ {x | Moved exchanged twoBranches x} :=
    ⟨by decide +kernel, by decide +kernel, by decide +kernel⟩
  rw [ha, Set.mem_singleton_iff] at hleft hright
  exact absurd (hleft.trans hright.symm) (by decide)

end Pass

end TreeWatch
