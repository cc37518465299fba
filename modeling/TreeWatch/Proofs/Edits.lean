import TreeWatch.Proofs.Filling
import TreeWatch.Proofs.Follow

/-!
# Announced Edits

The functions that change a record and announce it, each with what it needs
and what it does. All of them succeed when their precondition holds, so the
faults of this library are reached only by a caller that breaks one.

`Edits s s'` is what every caller may rely on, whatever it composed: between
two moments of a step the record stayed sound, the announcements in between
lead a copy from the one record to the other, and no condition was reported
and no pass asked for. The relation is reflexive and transitive, so nothing
about announcements has to be proved above this module.

What happened to the record is stated beside it, by the cut or the planting
that relates the two records.

## Main definitions

* `Step.Edits`: A stretch of a step that keeps record and copies in line.

## Theorems

* `Step.removeRows_spec`: A removal of rows cuts their subtrees.
* `Step.removeNode_spec`: A removal of one node wherever it sits.
* `Step.relocate_spec`: A move changes one parent link.
* `Step.insertRows_planted`, `Step.insertRows_spec`: An insertion plants a
  batch.
* `Step.evictTracked_spec`: An eviction cuts all tracked nodes of a list.
* `Step.reset_spec`: A reset leaves a root with what a snapshot shows below.
-/

namespace TreeWatch

open Forest (Under under_iff_up)

namespace Step

/-- Between two moments of a step the record stayed sound, what was announced
    leads from the one record to the other, and nothing else was reported. -/
structure Edits (s s' : Step) : Prop where
  sound : s'.store.Sound
  tells : ∃ trace, s'.trace = s.trace ++ trace ∧ Tells s.store trace s'.store
  recovered : s'.report.recovered = s.report.recovered
  requested : s'.report.resyncRequested = s.report.resyncRequested

theorem Edits.refl (s : Step) (hs : s.store.Sound) : Edits s s :=
  ⟨hs, ⟨[], (List.append_nil s.trace).symm, tells_nil s.store⟩, rfl, rfl⟩

theorem Edits.trans (s s' s'' : Step) (h : Edits s s') (h' : Edits s' s'') : Edits s s'' := by
  rcases h.tells with ⟨before, hbefore, htells⟩
  rcases h'.tells with ⟨after, hafter, htells'⟩
  refine ⟨h'.sound, ⟨before ++ after, ?_, htells.append _ _ _ before after htells'⟩,
    h'.recovered.trans h.recovered, h'.requested.trans h.requested⟩
  rw [hafter, hbefore, List.append_assoc]

/-- Bookkeeping that leaves the record, the trace and the conditions alone. -/
theorem Edits.of_eq (s s' : Step) (hs : s.store.Sound) (hstore : s'.store = s.store)
    (htrace : s'.trace = s.trace) (hrec : s'.report.recovered = s.report.recovered)
    (hreq : s'.report.resyncRequested = s.report.resyncRequested) : Edits s s' :=
  ⟨hstore ▸ hs, ⟨[], by rw [htrace, List.append_nil], hstore ▸ tells_nil s.store⟩, hrec, hreq⟩

end Step

namespace Store

/-- A tracked node that is not the root has a row, the length of what is in
    front of it. -/
theorem Sound.rowOf?_of_parent (s : Store) (hs : s.Sound) (h p : Handle)
    (hp : s.parent h = some p) :
    ∃ front back, s.children p = front ++ [h] ++ back ∧ s.rowOf? h = some front.length := by
  have hroot : s.root ≠ some h := hs.tree.root_ne h p hp
  rcases List.append_of_mem ((hs.tree.mem_kids p h).mpr hp) with ⟨front, back, hkids⟩
  refine ⟨front, back, ?_, ?_⟩
  · rw [hkids, List.append_assoc, List.singleton_append]
  · rw [rowOf?, if_neg hroot, hp, Option.bind_some,
      Handle.idxOf?_eq_some_iff_of_nodup _ (hs.tree.nodup p), hkids,
      List.getElem?_append_right (Nat.le_refl _), Nat.sub_self, List.getElem?_cons_zero]

/-- A tracked node keeps a row while another one is detached. -/
theorem Sound.rowOf?_detach (s : Store) (hs : s.Sound) (h q p : Handle) (hq : s.parent h = some q)
    (hp : s.contains p = true) (hpne : h ≠ p) : ∃ row, (s.detach h).2.rowOf? p = some row := by
  rcases (s.contains_iff p).mp hp with hr | ⟨pp, hpp⟩
  · exact ⟨0, by rw [rowOf?, root_detach, if_pos hr]⟩
  · by_cases hr : s.root = some p
    · exact ⟨0, by rw [rowOf?, root_detach, if_pos hr]⟩
    · rw [rowOf?, root_detach, if_neg hr, parent_detach, if_neg hpne, hpp, Option.bind_some,
        ← Option.isSome_iff_exists, List.isSome_idxOf?, hs.mem_children_detach s q h hq]
      exact ⟨hpne.symm, hpp⟩

-- A new child comes behind the smaller ones.
theorem children_linked (s : Store) (p h : Handle) :
    (s.link p h).children p =
      (s.children p).takeWhile (· < h) ++ [h] ++ (s.children p).dropWhile (· < h) := by
  rw [children_link, if_pos rfl, Handle.insertInto_eq, List.append_assoc, List.singleton_append]

/-- A node whose recorded parents lead to the root within the bound is shown in
    its row. -/
theorem Sound.indexWithin_of_level (s : Store) (hs : s.Sound) (bound : Nat) (h : Handle)
    (hh : s.contains h = true) (hb : Forest.level s.parent h ≤ bound + 1) :
    ∃ row, s.rowOf? h = some row ∧ s.indexWithin bound h = some (Index.ofRow row h) := by
  induction bound generalizing h with
  | zero =>
      rcases (s.contains_iff h).mp hh with hr | ⟨p, hp⟩
      · exact ⟨0, by rw [rowOf?, if_pos hr], by rw [indexWithin, if_pos hr]⟩
      · have hlt := hs.tree.level_lt h p hp
        have hpos : 0 < Forest.level s.parent p := (Set.ncard_pos).mpr ⟨p, Under.refl p⟩
        omega
  | succ bound ih =>
      rcases (s.contains_iff h).mp hh with hr | ⟨p, hp⟩
      · exact ⟨0, by rw [rowOf?, if_pos hr], by rw [indexWithin, if_pos hr]⟩
      · have hlt := hs.tree.level_lt h p hp
        have hpt : s.contains p = true := (s.contains_iff_held p).mpr (hs.tree.held_up h p hp)
        rcases ih p hpt (by omega) with ⟨_, _, hin⟩
        rcases hs.rowOf?_of_parent s h p hp with ⟨front, _, _, hrow⟩
        refine ⟨front.length, hrow, ?_⟩
        have hroot : s.root ≠ some h := hs.tree.root_ne h p hp
        rw [rowOf?, if_neg hroot, hp, Option.bind_some] at hrow
        rw [indexWithin, if_neg hroot]
        simp only [hp, hin, hrow, Option.map_some]

/-- Every tracked node is shown in its row, and no other node is shown. -/
theorem Sound.indexForNode_eq (s : Store) (hs : s.Sound) (h : Handle) :
    s.indexForNode h = if s.contains h then (s.rowOf? h).map (Index.ofRow · h) else none := by
  cases hh : s.contains h with
  | false =>
      rcases (s.not_contains_iff h).mp hh with ⟨hroot, hp⟩
      rw [if_neg Bool.false_ne_true, indexForNode]
      cases s.parents.size with
      | zero => simp only [indexWithin, hroot, if_false, hp]
      | succ bound => simp only [indexWithin, hroot, if_false, hp]
  | true =>
      rcases hs.tree.held_under_root h ((s.contains_iff_held h).mp hh) with ⟨r, hr, _⟩
      have hlevel := hs.tree.level_le s.nodeList
        (fun x hx => (s.mem_nodeList x).mpr ((s.contains_iff_held x).mpr hx)) h
        ((s.contains_iff_held h).mp hh)
      rw [length_nodeList, size, hr, Option.isSome_some, if_pos rfl] at hlevel
      rcases hs.indexWithin_of_level s s.parents.size h hh hlevel with ⟨row, hrow, hin⟩
      rw [if_pos rfl, indexForNode, hin, hrow, Option.map_some]

/-- A node is shown exactly if it is tracked. -/
theorem Sound.indexForNode_isSome (s : Store) (hs : s.Sound) (h : Handle) :
    (s.indexForNode h).isSome = s.contains h := by
  rw [hs.indexForNode_eq]
  cases hh : s.contains h with
  | false => rfl
  | true =>
      rw [if_pos rfl, Option.isSome_map]
      rcases (s.contains_iff h).mp hh with hr | ⟨p, hp⟩
      · rw [rowOf?, if_pos hr]
        rfl
      · rcases hs.rowOf?_of_parent s h p hp with ⟨front, _, _, hrow⟩
        rw [hrow]
        rfl

-- What is shown for a node shows it, in its first cell.
theorem Sound.indexForNode_spec (s : Store) (hs : s.Sound) (h : Handle) (i : Index)
    (hi : s.indexForNode h = some i) : i.node = h ∧ i.column = 0 := by
  rw [hs.indexForNode_eq] at hi
  cases hh : s.contains h with
  | false =>
      rw [hh, if_neg Bool.false_ne_true] at hi
      exact absurd hi (by simp only [reduceCtorEq, not_false_eq_true])
  | true =>
      rw [hh, if_pos rfl] at hi
      rcases Option.map_eq_some_iff.mp hi with ⟨row, _, rfl⟩
      exact ⟨rfl, rfl⟩

end Store

namespace Step

/-- The cell of a node that has a row is found. Looking it up leaves everything
    but the remembered rows and their count alone. -/
theorem parentIndex_spec (s : Step) (parent : Handle)
    (hrow : ∃ row, s.store.rowOf? parent = some row) :
    ∃ i rows lookups, i.node = parent ∧
      s.parentIndex parent = (some i, { s with rows := rows, lookups := lookups }) := by
  rcases hrow with ⟨row, hrow⟩
  unfold parentIndex
  cases s.rows[parent]?.filter (s.store.sitsAt parent) with
  | some row => exact ⟨Index.ofRow row parent, s.rows, s.lookups, rfl, rfl⟩
  | none =>
      refine ⟨Index.ofRow row parent, s.rows.insert parent row, s.lookups + 1, rfl, ?_⟩
      simp only [hrow]

theorem rowOf?_of_contains (s : Store) (hs : s.Sound) (h : Handle) (hh : s.contains h = true) :
    ∃ row, s.rowOf? h = some row := by
  rcases (s.contains_iff h).mp hh with hr | ⟨p, hp⟩
  · exact ⟨0, by rw [Store.rowOf?, if_pos hr]⟩
  · rcases hs.rowOf?_of_parent s h p hp with ⟨front, _, _, hrow⟩
    exact ⟨front.length, hrow⟩

/-- Announcing deletions is an edit that leaves the record alone. -/
theorem edits_announceDeleted (isAlive : Handle → Bool) (s : Step) (pruned : List Handle)
    (hs : s.store.Sound) : Edits s (s.announceDeleted isAlive pruned) := by
  refine ⟨hs, ⟨_, rfl, tells_quiet s.store _ fun n hn => ?_⟩, rfl, rfl⟩
  rcases List.mem_map.mp hn with ⟨h, _, rfl⟩
  exact ⟨rfl, Or.inl ⟨h, rfl⟩⟩

section Primitives

variable (isAlive : Handle → Bool) (s : Step) (hs : s.store.Sound)

include hs

/-- Removing consecutive rows of a tracked node takes out their subtrees. -/
theorem removeRows_spec (parent : Handle) (front rows back : List Handle)
    (hp : s.store.contains parent = true) (hne : rows ≠ [])
    (hkids : s.store.children parent = front ++ rows ++ back) :
    ∃ s', s.removeRows isAlive parent front.length (front.length + rows.length - 1) = .ok s' ∧
      Edits s s' ∧ s.store.Cuts s'.store fun x => ∃ v ∈ rows, Under s.store.parent x v := by
  have hpos : 0 < rows.length := List.length_pos_iff.mpr hne
  have hrow : ∀ v ∈ rows, s.store.parent v = some parent := by
    intro v hv
    rw [← hs.tree.mem_kids, hkids]
    exact List.mem_append_left _ (List.mem_append_right _ hv)
  have hroot : ∀ r, s.store.root = some r → r ∉ rows := by
    intro r hr hm
    exact hs.tree.root_ne r parent (hrow r hm) hr
  -- The interval of rows is the one of `rows`, and its bounds do not overflow.
  have hlast : front.length + rows.length - 1 + 1 = (front ++ rows).length := by
    rw [List.length_append]
    omega
  have hrange : front.length ≤ (front ++ rows).length ∧
      (front ++ rows).length ≤ (front ++ rows ++ back).length := by
    simp only [List.length_append]
    omega
  have hvictims : ((front ++ rows ++ back).drop front.length).take
      ((front ++ rows).length - front.length) = rows := by
    rw [List.append_assoc, List.drop_left, List.length_append, Nat.add_sub_cancel_left,
      List.take_left]
  have hcount : (Edit.remove parent front.length (front.length + rows.length - 1)).rowCount =
      .ok rows.length := by
    have hfit := hs.length_children_lt _ parent
    rw [hkids, List.length_append, List.length_append] at hfit
    have hsub : subtractCounts (front.length + rows.length - 1) front.length =
        .ok (rows.length - 1) := by
      rw [subtractCounts, if_pos (by omega)]
      exact congrArg Except.ok (by omega)
    have hadd : addCounts (rows.length - 1) 1 = .ok rows.length := by
      rw [addCounts, if_pos (by omega)]
      exact congrArg Except.ok (by omega)
    simp only [Edit.rowCount, hsub, bind, Except.bind, hadd]
  have hcut := hs.cuts_removeAll s.store rows hroot
  rcases s.parentIndex_spec parent (rowOf?_of_contains s.store hs parent hp) with
    ⟨i, found, lookups, hi, hindex⟩
  have htells := tells_removal s.store (s.store.removeAll rows).2 _ i front rows back hs hcut
    (fun _ => Iff.rfl) (hi ▸ hp) (hi ▸ hkids) hne _ rfl rfl
  -- Up to the announced deletions, which leave the record alone.
  have hok : ∃ m, s.removeRows isAlive parent front.length (front.length + rows.length - 1) =
      .ok (m.announceDeleted isAlive (s.store.removeAll rows).1) ∧
      m.store = (s.store.removeAll rows).2 ∧ Edits s m := by
    unfold removeRows
    simp only [hkids, hlast, hrange, and_self, if_true, hvictims, hindex, hcount, bind, Except.bind]
    exact ⟨_, rfl, rfl, hcut.sound, ⟨_, List.append_assoc s.trace [_] [_], htells⟩, rfl, rfl⟩
  rcases hok with ⟨m, hm, hmstore, hedits⟩
  refine ⟨_, hm, hedits.trans _ _ _ (edits_announceDeleted isAlive m _ hedits.sound), ?_⟩
  exact hmstore ▸ hcut

/-- Removing a node that is tracked and not the root takes out its subtree. -/
theorem removeNode_spec (h p : Handle) (hp : s.store.parent h = some p) :
    ∃ s', s.removeNode isAlive h = .ok (true, s') ∧ Edits s s' ∧
      s.store.Cuts s'.store (Under s.store.parent · h) := by
  rcases hs.rowOf?_of_parent s.store h p hp with ⟨front, back, hkids, hrow⟩
  have hpt := (s.store.contains_iff_held p).mpr (hs.tree.held_up h p hp)
  rcases s.removeRows_spec isAlive hs p front [h] back hpt (List.cons_ne_nil h []) hkids with
    ⟨s', hs', hedits, hcut⟩
  refine ⟨s', ?_, hedits, hcut.congr_gone fun x => ?_⟩
  · simp only [List.length_singleton, Nat.add_sub_cancel] at hs'
    simp only [removeNode, hp, hrow, hs', bind, Except.bind, pure, Except.pure]
  · simp only [List.mem_singleton, exists_eq_left]

omit hs in
-- The root and a node that is not tracked have no row to be removed from.
theorem removeNode_none (h : Handle) (hp : s.store.parent h = none) :
    s.removeNode isAlive h = .ok (false, s) := by
  simp only [removeNode, hp]

omit isAlive

/-- Moving a tracked node under one that is not below it changes its parent and
    no other. -/
theorem relocate_spec (h p q : Handle) (hq : s.store.parent h = some q)
    (hp : s.store.contains p = true) (hph : ¬ Under s.store.parent p h) :
    ∃ s', s.relocate h p = .ok (true, s') ∧ Edits s s' ∧ s'.store.root = s.store.root ∧
      ∀ x, s'.store.parent x = if h = x then some p else s.store.parent x := by
  have hroot : s.store.root ≠ some h := hs.tree.root_ne h q hq
  have hpne : h ≠ p := by
    rintro rfl
    exact hph (Under.refl h)
  have hqt := (s.store.contains_iff_held q).mpr (hs.tree.held_up h q hq)
  rcases hs.rowOf?_of_parent s.store h q hq with ⟨front, back, hkids, hrow⟩
  have hcut := hs.cuts_remove s.store h hroot
  have hsound := hs.link_moved s.store p h q hp hq hph
  have hroot' := (Store.root_link (s.store.detach h).2 p h).trans (s.store.root_detach h)
  have hup := s.store.parent_moved p h
  have hcut' := hs.cuts_of_moved s.store _ h hroot hroot' fun x hx => by
    rw [hup, if_neg (Ne.symm hx)]
  -- The first half: the subtree is taken out.
  rcases s.parentIndex_spec q (rowOf?_of_contains s.store hs q hqt) with
    ⟨i, found, lookups, hi, hindex⟩
  have hout := tells_removal s.store (s.store.remove h).2 _ i front [h] back hs hcut
    (fun x => by simp only [List.mem_singleton, exists_eq_left]) (hi ▸ hqt) (hi ▸ hkids)
    (List.cons_ne_nil h []) (s.store.detach h).2
    ((s.store.root_detach h).trans hcut.root.symm) (hs.shape_detach s.store h q hq)
  -- The second half: it is put in again, where it belongs under `p`.
  have hprow := hs.rowOf?_detach s.store h q p hq hp hpne
  have hrows := (s.store.detach h).2.children_linked p h
  have hdetached : (s.store.detach h).2.parents.contains h = false := by
    rw [Std.ExtTreeMap.contains_eq_isSome_getElem?, ← Store.parent, Store.parent_detach, if_pos rfl]
    rfl
  unfold relocate
  simp only [hq, hrow, hindex]
  generalize hm : Step.note _ (.remove q front.length front.length) = m
  have hmstore : m.store = (s.store.detach h).2 := hm ▸ rfl
  have hmtrace : m.trace = s.trace ++
      [⟨.rowsAboutToBeRemoved (some i) front.length front.length, s.store⟩,
        ⟨.rowsRemoved (some i) front.length front.length, (s.store.detach h).2⟩] := by
    rw [← hm]
    exact List.append_assoc s.trace [_] [_]
  have hmrec : m.report.recovered = s.report.recovered := hm ▸ rfl
  have hmreq : m.report.resyncRequested = s.report.resyncRequested := hm ▸ rfl
  rcases m.parentIndex_spec p (hmstore ▸ hprow) with ⟨j, found', lookups', hj, hindex'⟩
  have hjt : (s.store.remove h).2.contains j.node = true := by
    rw [hj, hcut.contains_iff]
    exact ⟨hp, hph⟩
  have hin := tells_insertion (s.store.remove h).2 _ _ j
    (((s.store.detach h).2.children p).takeWhile (· < h)) [h]
    (((s.store.detach h).2.children p).dropWhile (· < h)) hsound hcut'
    (fun x => by simp only [List.mem_singleton, exists_eq_left]) hjt (hj ▸ hrows)
    (List.cons_ne_nil h []) (s.store.detach h).2
    ((s.store.root_detach h).trans hcut.root.symm) (hs.shape_detach s.store h q hq)
  simp only [hindex', emit, hmstore, Store.attach, hdetached, Bool.false_eq_true, if_false, bind,
    Except.bind, pure, Except.pure]
  refine ⟨_, rfl, ⟨hsound, ⟨_, ?_, hout.append _ _ _ _ _ hin⟩, hmrec, hmreq⟩, hroot', hup⟩
  simp only [note, hmtrace, List.append_assoc]
  rfl

/-- Inserting an ascending batch of new nodes where it fits plants it, and the
    batch takes the announced rows if no other new node gets in between. -/
theorem insertRows_planted (parent : Handle) (front batch back : List Handle) (fill : Snapshot)
    (hfill : fill.Proper) (hp : s.store.contains parent = true) (hne : batch ≠ [])
    (hkids : s.store.children parent = front ++ back)
    (hasc : Handle.Ascending (front ++ batch ++ back))
    (hnew : ∀ h ∈ batch, s.store.contains h = false)
    (hapart : ∀ a ∈ batch, ∀ b ∈ batch, b ∉ fill.descendants a)
    (hshuns : fill.Shuns parent batch) :
    ∃ s', s.insertRows parent front.length batch fill = .ok s' ∧
      s.store.Planted fill parent batch s'.store ∧
      s'.store.children parent = front ++ batch ++ back ∧
      s'.report.recovered = s.report.recovered ∧
      s'.report.resyncRequested = s.report.resyncRequested ∧
      ∃ i : Index, i.node = parent ∧ s'.trace = s.trace ++
        [⟨.rowsAboutToBeInserted (some i) front.length (front.length + batch.length - 1), s.store⟩,
          ⟨.rowsInserted (some i) front.length (front.length + batch.length - 1), s'.store⟩] := by
  have hnd : batch.Nodup := by
    have hall := hasc.nodup
    exact List.Nodup.of_append_right (List.Nodup.of_append_left hall)
  rcases hs.planted_insertFilled s.store parent batch fill hfill hp hnew hnd hapart with
    ⟨t, ht, hpl⟩
  have hrows := hpl.children_parent hs hnew hshuns front back hkids hasc
  have hcount : addCounts front.length batch.length = .ok (front.length + batch.length) := by
    have hfit := hpl.sound.length_children_lt t parent
    rw [hrows, List.length_append, List.length_append] at hfit
    rw [addCounts, if_pos (by omega)]
  have hplace : ((t.children parent).drop front.length).take batch.length = batch := by
    rw [hrows, List.append_assoc, List.drop_left, List.take_left]
  have hempty : batch.isEmpty = false := by
    rw [← Bool.not_eq_true, List.isEmpty_iff]
    exact hne
  rcases s.parentIndex_spec parent (rowOf?_of_contains s.store hs parent hp) with
    ⟨i, found, lookups, hi, hindex⟩
  unfold insertRows
  simp only [hempty, Bool.false_eq_true, if_false, hcount, hindex, bind, Except.bind, emit, ht,
    hplace, ne_eq, not_true_eq_false, pure, Except.pure]
  exact ⟨_, rfl, hpl, hrows, rfl, rfl, i, hi, List.append_assoc s.trace [_] [_]⟩

/-- If no old node gets a child, a copy can follow the insertion of a batch. -/
theorem insertRows_spec (parent : Handle) (front batch back : List Handle) (fill : Snapshot)
    (hfill : fill.Proper) (hp : s.store.contains parent = true) (hne : batch ≠ [])
    (hkids : s.store.children parent = front ++ back)
    (hasc : Handle.Ascending (front ++ batch ++ back))
    (hnew : ∀ h ∈ batch, s.store.contains h = false)
    (hapart : ∀ a ∈ batch, ∀ b ∈ batch, b ∉ fill.descendants a)
    (hclear : s.store.Clear batch fill) :
    ∃ s', s.insertRows parent front.length batch fill = .ok s' ∧ Edits s s' ∧
      s.store.Planted fill parent batch s'.store := by
  rcases s.insertRows_planted hs parent front batch back fill hfill hp hne hkids hasc hnew hapart
    (hclear.shuns hfill hp hnew) with ⟨s', hrun, hpl, hrows, hrec, hreq, i, rfl, htrace⟩
  have hcut := hpl.cuts hs hfill hnew hclear
  have htells := tells_insertion s.store s'.store _ i front batch back hpl.sound hcut
    (fun _ => Iff.rfl) hp hrows hne s.store rfl rfl
  exact ⟨s', hrun, ⟨hpl.sound, ⟨_, htrace, htells⟩, hrec, hreq⟩, hpl⟩

end Primitives

/-- What an eviction of `nodes` takes out of a record: the subtrees of those of
    them that are tracked and not the root. -/
def Evicted (s : Store) (nodes : List Handle) (x : Handle) : Prop :=
  ∃ v ∈ nodes, s.parent v ≠ none ∧ Under s.parent x v

-- A node without a recorded parent takes nothing with it.
theorem evicted_cons_none (s : Store) (h : Handle) (nodes : List Handle) (hp : s.parent h = none)
    (x : Handle) : Evicted s (h :: nodes) x ↔ Evicted s nodes x := by
  simp only [Evicted, List.mem_cons, exists_eq_or_imp, hp, ne_eq, not_true_eq_false, false_and,
    false_or]

/-- After some nodes are gone, an eviction takes out what it would have taken out
    of the rest. -/
theorem evicted_of_cut (s t : Store) (gone : Handle → Prop) (hcut : s.Cuts t gone)
    (nodes : List Handle) (x : Handle) :
    gone x ∨ Evicted s nodes x ↔ gone x ∨ Evicted t nodes x := by
  by_cases hx : gone x
  · simp only [hx, true_or]
  · simp only [hx, false_or]
    refine exists_congr fun v => and_congr_right fun _ => ?_
    rw [hcut.links.under_iff x v hx]
    refine and_congr_left fun hxv => ?_
    rw [hcut.links.kept v fun hv => hx (hcut.links.gone_of_under x v hxv hv)]

/-- After the subtree of `h` is gone, the other nodes evict what they would have
    evicted outside of it. -/
theorem evicted_cons_some (s t : Store) (h p : Handle) (nodes : List Handle)
    (hp : s.parent h = some p) (hcut : s.Cuts t (Under s.parent · h)) (x : Handle) :
    Evicted s (h :: nodes) x ↔ Under s.parent x h ∨ Evicted t nodes x := by
  have hhead : Evicted s (h :: nodes) x ↔ Under s.parent x h ∨ Evicted s nodes x := by
    simp only [Evicted, List.mem_cons, exists_eq_or_imp, hp, ne_eq, reduceCtorEq,
      not_false_eq_true, true_and]
  rw [hhead]
  exact evicted_of_cut s t _ hcut nodes x

/-- One round of an eviction. -/
def evictNode (isAlive : Handle → Bool) (acc : Bool × Step) (h : Handle) :
    Except Fault (Bool × Step) :=
  if acc.2.store.contains h then do
    let (removed, s) ← acc.2.removeNode isAlive h
    if removed then
      let report := { s.report with relocated := s.report.relocated + 1 }
      return (true, { s with report := report })
    else return (acc.1, s)
  else .ok acc

-- Nothing is removed: the node is the root, or it is not tracked.
theorem evictNode_none (isAlive : Handle → Bool) (flag : Bool) (s : Step) (h : Handle)
    (hp : s.store.parent h = none) : evictNode isAlive (flag, s) h = .ok (flag, s) := by
  rw [evictNode]
  cases s.store.contains h with
  | true => simp only [if_true, s.removeNode_none isAlive h hp, bind, Except.bind,
      Bool.false_eq_true, if_false, pure, Except.pure]
  | false => rfl

theorem evictNode_some (isAlive : Handle → Bool) (flag : Bool) (s s' : Step) (h p : Handle)
    (hp : s.store.parent h = some p) (hrem : s.removeNode isAlive h = .ok (true, s')) :
    evictNode isAlive (flag, s) h =
      .ok (true,
        { s' with report := { s'.report with relocated := s'.report.relocated + 1 } }) := by
  have hh := (s.store.contains_iff h).mpr (Or.inr ⟨p, hp⟩)
  simp only [evictNode, hh, if_true, hrem, bind, Except.bind, pure, Except.pure]

/-- Evicting nodes one after the other. The answer says whether one of them was
    tracked and not the root; if none was, nothing changes. -/
theorem evict_spec (isAlive : Handle → Bool) (nodes : List Handle) (flag : Bool) (s : Step)
    (hs : s.store.Sound) :
    ∃ flag' s', nodes.foldlM (evictNode isAlive) (flag, s) = .ok (flag', s') ∧
      Edits s s' ∧ s.store.Cuts s'.store (Evicted s.store nodes) ∧
      (flag' = true ↔ flag = true ∨ ∃ v ∈ nodes, s.store.parent v ≠ none) ∧
      ((∀ v ∈ nodes, s.store.parent v = none) → s' = s) := by
  induction nodes generalizing flag s with
  | nil =>
      have hnone : ∀ x, ¬ Evicted s.store [] x := by
        rintro x ⟨v, hv, _⟩
        exact List.not_mem_nil hv
      refine ⟨flag, s, rfl, Edits.refl s hs, ⟨hs, rfl, ⟨fun _ p _ hg => absurd hg (hnone p),
        fun x hg => absurd hg (hnone x), fun _ _ => rfl⟩, fun r _ => hnone r⟩, ?_, fun _ => rfl⟩
      simp only [List.not_mem_nil, false_and, exists_false, or_false]
  | cons h nodes ih =>
      rw [List.foldlM_cons]
      cases hp : s.store.parent h with
      | none =>
          rcases ih flag s hs with ⟨flag', s', hrun, hedits, hcut, hflag, hsame⟩
          refine ⟨flag', s', ?_, hedits, hcut.congr_gone (evicted_cons_none s.store h nodes hp), ?_,
            fun hall => hsame fun v hv => hall v (List.mem_cons_of_mem h hv)⟩
          · rw [evictNode_none isAlive flag s h hp]
            exact hrun
          · simp only [hflag, List.mem_cons, exists_eq_or_imp, hp, ne_eq, not_true_eq_false,
              false_or]
      | some p =>
          rcases s.removeNode_spec isAlive hs h p hp with ⟨s₁, hrem, hedits₁, hcut₁⟩
          rcases ih true { s₁ with report :=
            { s₁.report with relocated := s₁.report.relocated + 1 } } hedits₁.sound with
            ⟨flag', s', hrun, hedits, hcut, hflag, _⟩
          have hcount : Edits s { s₁ with report :=
              { s₁.report with relocated := s₁.report.relocated + 1 } } :=
            hedits₁.trans _ _ _ (Edits.of_eq _ _ hedits₁.sound rfl rfl rfl rfl)
          refine ⟨flag', s', ?_, hcount.trans _ _ _ hedits,
            (hcut₁.trans hcut).congr_gone (evicted_cons_some s.store _ h p nodes hp hcut₁), ?_,
            fun hall => ?_⟩
          · rw [evictNode_some isAlive flag s s₁ h p hp hrem]
            exact hrun
          · rw [hflag]
            simp only [true_or, List.mem_cons, exists_eq_or_imp, hp, ne_eq, reduceCtorEq,
              not_false_eq_true, or_true]
          · rw [hall h List.mem_cons_self] at hp
            exact absurd hp (by simp only [reduceCtorEq, not_false_eq_true])

section Eviction

variable (isAlive : Handle → Bool) (s : Step) (hs : s.store.Sound)

include hs

/-- An eviction takes out whatever is tracked below `roots` in a snapshot, the
    root of the record apart. -/
theorem evictTracked_spec (roots : List Handle) (fill : Snapshot) :
    ∃ flag s', s.evictTracked isAlive roots fill = .ok (flag, s') ∧ Edits s s' ∧
      s.store.Cuts s'.store (Evicted s.store (roots.flatMap fill.descendants)) ∧
      (flag = true ↔ ∃ v ∈ roots.flatMap fill.descendants, s.store.parent v ≠ none) ∧
      (flag = false → s' = s) := by
  rcases evict_spec isAlive (roots.flatMap fill.descendants) false s hs with
    ⟨flag, s', hrun, hedits, hcut, hflag, hsame⟩
  rw [Bool.false_eq_true, false_or] at hflag
  refine ⟨flag, s', hrun, hedits, hcut, hflag, fun hf => hsame fun v hv => ?_⟩
  by_contra hp
  rw [hflag.mpr ⟨v, hv, hp⟩] at hf
  exact Bool.false_ne_true hf.symm

omit hs in
-- After an eviction only the root of the record is still tracked there.
theorem parent_of_evicted (t : Store) (nodes : List Handle)
    (hcut : s.store.Cuts t (Evicted s.store nodes)) (v : Handle) (hv : v ∈ nodes) :
    t.parent v = none := by
  cases hp : t.parent v with
  | none => rfl
  | some p =>
      rcases hcut.links.up_of_up v p hp with ⟨hsp, hg⟩
      refine absurd ⟨v, hv, ?_, Under.refl v⟩ hg
      rw [hsp]
      exact Option.some_ne_none p

omit hs in
/-- A reset to a sound record is an edit, whatever the record was. -/
theorem edits_reset (root : Option Handle) (fill : Snapshot)
    (hsound : (s.reset isAlive root fill).store.Sound) : Edits s (s.reset isAlive root fill) := by
  unfold reset
  refine Edits.trans s _ _ ?_ (edits_announceDeleted isAlive _ _ hsound)
  exact ⟨hsound, ⟨_, List.append_assoc s.trace [_] [_], tells_reset s.store _⟩, rfl, rfl⟩

omit hs in
/-- A reset replaces the record by a root with what a snapshot shows below
    it. -/
theorem reset_spec (root : Handle) (fill : Snapshot) (hfill : fill.Proper) :
    Edits s (s.reset isAlive (some root) fill) ∧
      Store.Filled fill (Store.ofRoot (some root)) (fill.descendants root)
        (s.reset isAlive (some root) fill).store := by
  have hroot : (Store.ofRoot (some root)).contains root = true :=
    (Store.contains_iff _ root).mpr (Or.inl rfl)
  have hf := (Store.sound_ofRoot (some root)).filled_populate _ root fill hfill hroot
  exact ⟨s.edits_reset isAlive (some root) fill hf.sound, hf⟩

omit hs in
/-- A reset without a root leaves the empty record. -/
theorem reset_none (fill : Snapshot) :
    Edits s (s.reset isAlive none fill) ∧ (s.reset isAlive none fill).store = Store.empty :=
  ⟨s.edits_reset isAlive none fill (Store.sound_ofRoot none), rfl⟩

end Eviction

end Step

end TreeWatch
