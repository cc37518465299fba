import TreeWatch.Step
import TreeWatch.Proofs.Tree

/-!
# What Changes Announce

The changes of a record, read from their text: wherever one ends, this is
what it did to the record, what it announced and what it filed. Nothing is said
here about when a change is possible, and the record may be in any state.

An announcement carries the record of its moment, so it says more than its row
numbers. The rows that are about to go are still there, and the rows that have
come are there already, so both can be read off, along with all that lies below
them. An edit of the script is what one half of a pair of announcements says.

## Main definitions

* `Notice.removed`, `Notice.inserted`: The rows an announcement is about.
* `Notice.Takes`, `Notice.Gives`: A node is in one of these rows or below it.
* `Notice.edit`: The edit an announcement stands for.
* `Notice.Removes`: A node goes away with an edit.
* `Booked`: A report says what was announced.

## Theorems

* `Booked.append`: Stretches of a trace one after the other.
* `Step.booked_announceDeleted`: Deletions are counted as they are announced.
* `Step.removeRows_cases`, `Step.insertRows_cases`, `Step.relocate_cases`,
  `Step.reset_cases`: What the changes do where they end.
* `Step.insertRows_announced`: An insertion that is not empty is announced.
* `Step.reset_told`: What a reset announces.
-/

namespace TreeWatch

open Forest (Under)

/-- The handles that an edit puts in. -/
def Edit.inserted : Edit → List Handle
  | remove _ _ _ => []
  | insert _ _ handles => handles

-- A removal has a row count exactly if its rows are in order.
theorem Edit.rowCount_remove (parent : Handle) (first last count : Nat)
    (hcount : (Edit.remove parent first last).rowCount = .ok count) :
    first ≤ last ∧ count = last + 1 - first := by
  simp only [rowCount, subtractCounts, addCounts] at hcount
  by_cases hle : first ≤ last
  · rw [if_pos hle] at hcount
    simp only [bind, Except.bind] at hcount
    split at hcount
    · rw [Except.ok.injEq] at hcount
      omega
    · exact absurd hcount (by simp only [reduceCtorEq, not_false_eq_true])
  · rw [if_neg hle] at hcount
    exact absurd hcount (by simp only [bind, Except.bind, reduceCtorEq, not_false_eq_true])

namespace Store

/-- The nodes in the rows from `first` to `last` under a cell, or at the top
    level. -/
def rowsAt (s : Store) (under : Option Index) (first last : Nat) : List Handle :=
  let rows := match under with
    | none => s.root.toList
    | some i => s.children i.node
  (rows.drop first).take (last + 1 - first)

theorem rowsAt_eq (s : Store) (i : Index) (front rows back : List Handle)
    (hkids : s.children i.node = front ++ rows ++ back) (hne : rows ≠ []) :
    s.rowsAt (some i) front.length (front.length + rows.length - 1) = rows := by
  have hpos : 0 < rows.length := List.length_pos_iff.mpr hne
  have hlen : front.length + rows.length - 1 + 1 - front.length = rows.length := by omega
  rw [rowsAt, hkids, hlen, List.append_assoc, List.drop_left, List.take_left]

end Store

namespace Notice

/-- The nodes in the rows that are about to go away. -/
def removed (n : Notice) : List Handle :=
  match n.event with
  | .rowsAboutToBeRemoved under first last => n.store.rowsAt under first last
  | _ => []

/-- The nodes in the rows that have come. -/
def inserted (n : Notice) : List Handle :=
  match n.event with
  | .rowsInserted under first last => n.store.rowsAt under first last
  | _ => []

/-- A node is about to go away with the announced rows: it is in one of them, or
    one of the nodes it is recorded under is. -/
def Takes (n : Notice) (h : Handle) : Prop := ∃ v ∈ n.removed, Under n.store.parent h v

/-- A node is there with the announced rows. -/
def Gives (n : Notice) (h : Handle) : Prop := ∃ v ∈ n.inserted, Under n.store.parent h v

/-- The edit that an announcement stands for. A removal is read off when the rows
    are about to go away, an insertion when they have come. -/
def edit (n : Notice) : Option Edit :=
  match n.event with
  | .rowsAboutToBeRemoved (some i) first last => some (.remove i.node first last)
  | .rowsInserted (some i) first _ => some (.insert i.node first n.inserted)
  | _ => none

/-- The edit that an announcement stands for, with the nodes in the rows that are
    about to go away. -/
def taken (n : Notice) : Option (Edit × List Handle) := n.edit.map fun e => (e, n.removed)

/-- The announcement stands for a removal that takes the node away. -/
def Removes (n : Notice) (h : Handle) : Prop :=
  (∃ parent first last, n.edit = some (.remove parent first last)) ∧ n.Takes h

-- What the edit of an announcement puts in are the rows that have come.
theorem inserted_of_edit (n : Notice) (e : Edit) (he : n.edit = some e) :
    e.inserted = n.inserted := by
  unfold edit at he
  split at he
  · rename_i hn
    rw [← Option.some.inj he, inserted, hn]
    rfl
  · exact Option.some.inj he ▸ rfl
  · exact absurd he (Option.some_ne_none e).symm

/-- Whether the announcement is that of a deletion. -/
def isDeletion (n : Notice) : Bool :=
  match n.event with
  | .nodeDeleted _ => true
  | _ => false

/-- Whether the announcement is that the model was replaced. -/
def isReset (n : Notice) : Bool :=
  match n.event with
  | .modelReset => true
  | _ => false

end Notice

/-- The report says of a stretch of a trace what was announced in it: its edits
    in order, how many rows went and came, how many deletions there were, and
    whether the model was replaced. A node whose deletion is announced is not
    tracked at that moment. -/
structure Booked (r : Report) (trace : List Notice) (r' : Report) : Prop where
  script : r'.script = r.script ++ trace.filterMap Notice.edit
  removed : r'.removed = r.removed + (trace.flatMap Notice.removed).length
  inserted : r'.inserted = r.inserted + (trace.flatMap Notice.inserted).length
  deleted : r'.deleted = r.deleted + trace.countP Notice.isDeletion
  reset : r'.reset = (r.reset || trace.any Notice.isReset)
  gone : ∀ n ∈ trace, ∀ h, n.event = .nodeDeleted h → n.store.contains h = false

theorem Booked.nil (r : Report) : Booked r [] r :=
  ⟨(List.append_nil r.script).symm, rfl, rfl, rfl, (Bool.or_false r.reset).symm,
    fun _ hn => absurd hn List.not_mem_nil⟩

theorem Booked.append (r r' r'' : Report) (before after : List Notice) (h : Booked r before r')
    (h' : Booked r' after r'') : Booked r (before ++ after) r'' := by
  refine ⟨?_, ?_, ?_, ?_, ?_, fun n hn => ?_⟩
  · rw [h'.script, h.script, List.filterMap_append, List.append_assoc]
  · rw [h'.removed, h.removed, List.flatMap_append, List.length_append, Nat.add_assoc]
  · rw [h'.inserted, h.inserted, List.flatMap_append, List.length_append, Nat.add_assoc]
  · rw [h'.deleted, h.deleted, List.countP_append, Nat.add_assoc]
  · rw [h'.reset, h.reset, List.any_append, Bool.or_assoc]
  · rcases List.mem_append.mp hn with hn | hn
    · exact h.gone n hn
    · exact h'.gone n hn

-- Relocations are counted beside what is announced.
theorem Booked.relocated (r r' : Report) (trace : List Notice) (n : Nat) (h : Booked r trace r') :
    Booked r trace { r' with relocated := n } :=
  ⟨h.script, h.removed, h.inserted, h.deleted, h.reset, h.gone⟩

/-- The announcements of the deletion of some nodes. -/
def farewell (gone : List Handle) (t : Store) : List Notice :=
  gone.map fun h => ⟨.nodeDeleted h, t⟩

/-- The announcements that a model is replaced. -/
def replacement (s t : Store) : List Notice := [⟨.modelAboutToBeReset, s⟩, ⟨.modelReset, t⟩]

theorem edits_farewell (gone : List Handle) (t : Store) :
    (farewell gone t).filterMap Notice.edit = [] := by
  rw [farewell, List.filterMap_map, List.filterMap_eq_nil_iff]
  exact fun _ _ => rfl

-- Nothing goes or comes with the announcements of deletions.
theorem quiet_farewell (gone : List Handle) (t : Store) :
    (farewell gone t).flatMap Notice.removed = [] ∧
      (farewell gone t).flatMap Notice.inserted = [] ∧
      (farewell gone t).any Notice.isReset = false := by
  refine ⟨List.flatMap_eq_nil_iff.mpr fun n hn => ?_, List.flatMap_eq_nil_iff.mpr fun n hn => ?_,
    List.any_eq_false.mpr fun n hn => ?_⟩
  all_goals
    rcases List.mem_map.mp hn with ⟨x, _, rfl⟩
    simp only [Notice.removed, Notice.inserted, Notice.isReset, Bool.false_eq_true,
      not_false_eq_true]

-- The edits of a trace can be read off what it takes.
theorem map_fst_taken (trace : List Notice) :
    (trace.filterMap Notice.taken).map Prod.fst = trace.filterMap Notice.edit := by
  rw [List.map_filterMap]
  refine List.filterMap_congr fun n _ => ?_
  rw [Notice.taken, Option.map_map]
  exact Option.map_id'

theorem taken_farewell (gone : List Handle) (t : Store) :
    (farewell gone t).filterMap Notice.taken = [] :=
  List.map_eq_nil_iff.mp ((map_fst_taken _).trans (edits_farewell gone t))

namespace Step

/-- Deletions are counted as they are announced, with a record that does not track
    the nodes any more. -/
theorem booked_announceDeleted (isAlive : Handle → Bool) (s : Step) (pruned : List Handle) :
    Booked s.report
      (farewell (pruned.filter fun h => !s.store.contains h && !isAlive h) s.store)
      (s.announceDeleted isAlive pruned).report := by
  have hall : ∀ gone, (farewell gone s.store).countP Notice.isDeletion = gone.length := by
    intro gone
    rw [farewell, List.countP_map, List.countP_eq_length]
    exact fun _ _ => rfl
  rcases quiet_farewell (pruned.filter fun h => !s.store.contains h && !isAlive h) s.store with
    ⟨hremoved, hinserted, hreset⟩
  refine ⟨?_, ?_, ?_, ?_, ?_, fun n hn h he => ?_⟩
  · rw [edits_farewell, List.append_nil]
    rfl
  · rw [hremoved]
    rfl
  · rw [hinserted]
    rfl
  · rw [hall]
    rfl
  · rw [hreset, Bool.or_false]
    rfl
  · rcases List.mem_map.mp hn with ⟨x, hx, rfl⟩
    rw [List.mem_filter, Bool.and_eq_true, Bool.not_eq_true'] at hx
    exact Event.nodeDeleted.inj he ▸ hx.2.1

section Changes

variable (isAlive : Handle → Bool) (s : Step)

-- Looking up a row changes neither the record nor the trace nor the report.
theorem parentIndex_keeps (parent : Handle) :
    (s.parentIndex parent).2.store = s.store ∧ (s.parentIndex parent).2.trace = s.trace ∧
      (s.parentIndex parent).2.report = s.report := by
  unfold parentIndex
  cases s.rows[parent]?.filter (s.store.sitsAt parent) with
  | some row => exact ⟨rfl, rfl, rfl⟩
  | none =>
      dsimp only
      cases s.store.rowOf? parent <;> exact ⟨rfl, rfl, rfl⟩

/-- A removal of rows does nothing, or it announces the removal and then the
    deletions. -/
theorem removeRows_cases (parent : Handle) (first last : Nat) (s' : Step)
    (hok : s.removeRows isAlive parent first last = .ok s') :
    s' = s ∨ ∃ (under : Option Index) (m : Step) (out : List Handle × Store),
      out = s.store.removeAll (((s.store.children parent).drop first).take (last + 1 - first)) ∧
      m.store = out.2 ∧ m.trace = s.trace ++ [⟨.rowsAboutToBeRemoved under first last, s.store⟩] ++
        [⟨.rowsRemoved under first last, out.2⟩] ∧
      s' = m.announceDeleted isAlive out.1 ∧ under = (s.parentIndex parent).1 ∧
      first ≤ last ∧ last < (s.store.children parent).length ∧
      m.report = { s.report with
        script := s.report.script ++ [.remove parent first last]
        removed := s.report.removed + (last + 1 - first) } := by
  unfold removeRows at hok
  by_cases hrange : first ≤ last + 1 ∧ last + 1 ≤ (s.store.children parent).length
  · rw [if_pos hrange] at hok
    rcases s.parentIndex_keeps parent with ⟨hstore, htrace, hreport⟩
    generalize s.parentIndex parent = found at hstore htrace hreport hok ⊢
    cases hcount : (Edit.remove parent first last).rowCount with
    | error f => simp only [hcount, bind, Except.bind, reduceCtorEq] at hok
    | ok count =>
        rcases Edit.rowCount_remove parent first last count hcount with ⟨hle, rfl⟩
        simp only [hcount, emit, note, hstore, htrace, hreport, bind, Except.bind, pure,
          Except.pure, Except.ok.injEq] at hok
        exact Or.inr ⟨found.1, _, _, rfl, rfl, rfl, hok.symm, rfl, hle, hrange.2, rfl⟩
  · rw [if_neg hrange, Except.ok.injEq] at hok
    exact Or.inl hok.symm

/-- An insertion of a batch that is not empty announces it. -/
theorem insertRows_announced (parent : Handle) (first : Nat) (handles : List Handle)
    (fill : Snapshot) (hne : handles ≠ []) (s' : Step)
    (hok : s.insertRows parent first handles fill = .ok s') :
    ∃ (under : Option Index) (last : Nat),
      s.store.insertFilled parent handles fill = .ok s'.store ∧
      s'.trace = s.trace ++ [⟨.rowsAboutToBeInserted under first last, s.store⟩] ++
        [⟨.rowsInserted under first last, s'.store⟩] ∧
      under = (s.parentIndex parent).1 ∧ last = first + handles.length - 1 ∧
      ((s'.store.children parent).drop first).take handles.length = handles ∧
      s'.report = { s.report with
        script := s.report.script ++ [.insert parent first handles]
        inserted := s.report.inserted + handles.length } := by
  unfold insertRows at hok
  rw [if_neg (mt List.isEmpty_iff.mp hne)] at hok
  rcases s.parentIndex_keeps parent with ⟨hstore, htrace, hreport⟩
  generalize s.parentIndex parent = found at hstore htrace hreport hok ⊢
  cases hlast : addCounts first handles.length with
  | error f => simp only [hlast, bind, Except.bind, reduceCtorEq] at hok
  | ok last =>
      have hsum : last = first + handles.length := by
        unfold addCounts at hlast
        split at hlast
        · exact (Except.ok.inj hlast).symm
        · exact absurd hlast (by simp only [reduceCtorEq, not_false_eq_true])
      simp only [hlast, emit, note, hstore, htrace, hreport, bind, Except.bind] at hok
      cases hins : s.store.insertFilled parent handles fill with
      | error f => simp only [hins, reduceCtorEq] at hok
      | ok t =>
          simp only [hins] at hok
          by_cases hrows : ((t.children parent).drop first).take handles.length ≠ handles
          · rw [if_pos hrows] at hok
            exact absurd hok (by simp only [throw, throwThe, MonadExceptOf.throw, reduceCtorEq,
              not_false_eq_true])
          · rw [if_neg hrows] at hok
            simp only [pure, Except.pure, Except.ok.injEq] at hok
            subst hok
            exact ⟨found.1, last - 1, rfl, rfl, rfl, by rw [hsum], not_not.mp hrows, rfl⟩

/-- An insertion of a batch does nothing, or it announces the insertion. -/
theorem insertRows_cases (parent : Handle) (first : Nat) (handles : List Handle)
    (fill : Snapshot) (s' : Step) (hok : s.insertRows parent first handles fill = .ok s') :
    s' = s ∨ ∃ (under : Option Index) (last : Nat),
      s.store.insertFilled parent handles fill = .ok s'.store ∧
      s'.trace = s.trace ++ [⟨.rowsAboutToBeInserted under first last, s.store⟩] ++
        [⟨.rowsInserted under first last, s'.store⟩] ∧
      under = (s.parentIndex parent).1 ∧ last = first + handles.length - 1 ∧ handles ≠ [] ∧
      ((s'.store.children parent).drop first).take handles.length = handles ∧
      s'.report = { s.report with
        script := s.report.script ++ [.insert parent first handles]
        inserted := s.report.inserted + handles.length } := by
  by_cases hempty : handles = []
  · subst hempty
    exact Or.inl (Except.ok.inj hok).symm
  · rcases s.insertRows_announced parent first handles fill hempty s' hok with
      ⟨under, last, hins, htrace, hunder, hlast, hrows, hreport⟩
    exact Or.inr ⟨under, last, hins, htrace, hunder, hlast, hempty, hrows, hreport⟩

-- Only moves and evictions count relocations.
theorem removeRows_relocated (parent : Handle) (first last : Nat) (s' : Step)
    (hok : s.removeRows isAlive parent first last = .ok s') :
    s'.report.relocated = s.report.relocated := by
  rcases s.removeRows_cases isAlive parent first last s' hok with
    rfl | ⟨_, m, _, _, _, _, rfl, _, _, _, hreport⟩
  · rfl
  · exact (congrArg Report.relocated hreport).trans rfl

theorem insertRows_relocated (parent : Handle) (first : Nat) (handles : List Handle)
    (fill : Snapshot) (s' : Step) (hok : s.insertRows parent first handles fill = .ok s') :
    s'.report.relocated = s.report.relocated := by
  rcases s.insertRows_cases parent first handles fill s' hok with
    rfl | ⟨_, _, _, _, _, _, _, _, hreport⟩
  · rfl
  · exact (congrArg Report.relocated hreport).trans rfl

/-- A move does nothing, or it announces a removal and an insertion. -/
theorem relocate_cases (h parent : Handle) (done : Bool × Step)
    (hok : s.relocate h parent = .ok done) :
    done.2 = s ∨ ∃ (source : Handle) (oldRow row : Nat) (under under' : Option Index) (m : Step),
      s.store.parent h = some source ∧ done.2.store = (s.store.detach h).2.link parent h ∧
      done.2.trace = s.trace ++ [⟨.rowsAboutToBeRemoved under oldRow oldRow, s.store⟩] ++
        [⟨.rowsRemoved under oldRow oldRow, (s.store.detach h).2⟩] ++
        [⟨.rowsAboutToBeInserted under' row row, (s.store.detach h).2⟩] ++
        [⟨.rowsInserted under' row row, done.2.store⟩] ∧
      s.store.rowOf? h = some oldRow ∧ row = (s.store.detach h).2.insertionRow parent h ∧
      under = (s.parentIndex source).1 ∧ m.store = (s.store.detach h).2 ∧
      under' = (m.parentIndex parent).1 ∧
      done.2.report = { s.report with
        script := s.report.script ++ [.remove source oldRow oldRow] ++ [.insert parent row [h]]
        removed := s.report.removed + 1
        inserted := s.report.inserted + 1
        relocated := s.report.relocated + 1 } := by
  unfold relocate at hok
  split at hok
  · rename_i source oldRow hp hrow
    rcases s.parentIndex_keeps source with ⟨hstore, htrace, hreport⟩
    generalize hfound : s.parentIndex source = found at hstore htrace hreport hok
    dsimp only at hok
    generalize hm : Step.note _ (.remove source oldRow oldRow) = m at hok
    have hmstore : m.store = (s.store.detach h).2 := by
      rw [← hm, ← hstore]
      rfl
    have hmtrace : m.trace = s.trace ++ [⟨.rowsAboutToBeRemoved found.1 oldRow oldRow, s.store⟩] ++
        [⟨.rowsRemoved found.1 oldRow oldRow, (s.store.detach h).2⟩] := by
      rw [← hm, ← hstore, ← htrace]
      rfl
    have hmreport : m.report =
        { s.report with script := s.report.script ++ [.remove source oldRow oldRow] } := by
      rw [← hm, ← hreport]
      rfl
    rcases m.parentIndex_keeps parent with ⟨hstore', htrace', hreport'⟩
    generalize hfound' : m.parentIndex parent = found' at hstore' htrace' hreport' hok
    simp only [emit, note, Store.attach, hstore', htrace', hmstore, hmtrace] at hok
    by_cases hattached : (s.store.detach h).2.parents.contains h = true
    · simp only [hattached, if_true, bind, Except.bind, reduceCtorEq] at hok
    · simp only [hattached, Bool.false_eq_true, if_false, bind, Except.bind, pure, Except.pure,
        Except.ok.injEq] at hok
      subst hok
      refine Or.inr ⟨source, oldRow, _, found.1, found'.1, m, hp, rfl, rfl, hrow, rfl,
        congrArg Prod.fst hfound.symm, hmstore, congrArg Prod.fst hfound'.symm, ?_⟩
      simp only [hreport', hmreport]
  · rw [Except.ok.injEq] at hok
    exact Or.inl (hok ▸ rfl)

/-- A reset announces that the model is replaced, and then the deletions. -/
theorem reset_cases (root : Option Handle) (fill : Snapshot) :
    ∃ (m : Step) (previous : List Handle),
      m.trace = s.trace ++ [⟨.modelAboutToBeReset, s.store⟩, ⟨.modelReset, m.store⟩] ∧
      m.report = { s.report with reset := true } ∧
      s.reset isAlive root fill = m.announceDeleted isAlive previous :=
  ⟨_, _, List.append_assoc s.trace [_] [_], rfl, rfl⟩

/-- The report says what a reset announces: no edits, and the deletions. -/
theorem reset_told (root : Option Handle) (fill : Snapshot) : ∃ gone,
    (s.reset isAlive root fill).trace = s.trace ++
      (replacement s.store (s.reset isAlive root fill).store ++
        farewell gone (s.reset isAlive root fill).store) ∧
    Booked s.report (replacement s.store (s.reset isAlive root fill).store ++
        farewell gone (s.reset isAlive root fill).store) (s.reset isAlive root fill).report := by
  rcases s.reset_cases isAlive root fill with ⟨m, previous, htrace, hreport, hreset⟩
  have hpair : Booked s.report (replacement s.store m.store) m.report := by
    rw [hreport]
    refine ⟨(List.append_nil _).symm, rfl, rfl, rfl, (Bool.or_true _).symm, fun n hn h he => ?_⟩
    rcases List.mem_pair.mp hn with rfl | rfl
    · exact absurd he Event.noConfusion
    · exact absurd he Event.noConfusion
  rw [hreset]
  refine ⟨_, ?_, hpair.append _ _ _ _ _ (m.booked_announceDeleted isAlive previous)⟩
  rw [announceDeleted, htrace, List.append_assoc]
  rfl

end Changes

end Step

end TreeWatch
