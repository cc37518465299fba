import TreeWatch.Proofs.Changes
import TreeWatch.Proofs.Placement

/-!
# Acts of a Pass

Both sweeps of a full pass are made of three acts. Rows are removed that no node
in place lies under. A live node that is recorded under another parent is moved
to its live one. Live nodes of which nothing is tracked are inserted with all
that is live below them.

`Act` says all there is to say about one act: the records before and after it,
what it announced, and why it was in order. A sweep is a course of acts, so what
is asked about a pass as a whole is asked about one act, and about one course
after the other. How a sweep finds its next act does not come up again.

## Main definitions

* `RowRun`, `Pass.Took`: Consecutive rows, and a stretch of a step that removes some.
* `Pass.Full`: A batch that cannot be continued.
* `Pass.Spare`, `Pass.Stray`, `Pass.Fresh`: What may be removed, moved and
  inserted.
* `Pass.Act`: One act with what it announces.
* `Pass.Course`: Acts one after the other.
* `Pass.Works`: A stretch of a step that is a course of acts.

## Theorems

* `Pass.Spare.removeRows`, `Pass.Stray.relocate`, `Pass.Fresh.insertRows`: What
  may be done is done, and is an act.
* `Pass.removeRows_told`, `Pass.insertRows_told`, `Pass.relocate_told`: What the
  changes of rows under tracked nodes announce.
* `Pass.works_evict`: An eviction is a course of removals.
-/

namespace TreeWatch

open Forest (Under)

/-- The announcements of a removal of rows. -/
def removal (i : Index) (first last : Nat) (s t : Store) : List Notice :=
  [⟨.rowsAboutToBeRemoved (some i) first last, s⟩, ⟨.rowsRemoved (some i) first last, t⟩]

/-- The announcements of an insertion of rows. -/
def insertion (i : Index) (first last : Nat) (s t : Store) : List Notice :=
  [⟨.rowsAboutToBeInserted (some i) first last, s⟩, ⟨.rowsInserted (some i) first last, t⟩]

/-- Consecutive rows of a node, from row `first` on. -/
structure RowRun where
  node : Handle
  first : Nat
  handles : List Handle
deriving DecidableEq

namespace RowRun

/-- The removal of the rows. -/
def edit (r : RowRun) : Edit := .remove r.node r.first (r.first + r.handles.length - 1)

/-- The same, with the nodes in the rows. -/
def taken (r : RowRun) : Edit × List Handle := (r.edit, r.handles)

end RowRun

namespace Pass

/-- Between two moments of a step these rows were removed, one run after the other,
    and there was no other edit. -/
def Took (s s' : Step) (runs : List RowRun) : Prop :=
  ∃ trace, s'.trace = s.trace ++ trace ∧ trace.filterMap Notice.taken = runs.map RowRun.taken

theorem Took.nil (s : Step) : Took s s [] := ⟨[], (List.append_nil s.trace).symm, rfl⟩

theorem Took.append (s s' s'' : Step) (runs more : List RowRun) (h : Took s s' runs)
    (h' : Took s' s'' more) : Took s s'' (runs ++ more) := by
  rcases h with ⟨before, hbefore, hruns⟩
  rcases h' with ⟨after, hafter, hmore⟩
  refine ⟨before ++ after, by rw [hafter, hbefore, List.append_assoc], ?_⟩
  rw [List.filterMap_append, hruns, hmore, List.map_append]

/-- Consecutive rows of a tracked node that may be removed, because no node in
    place is under any of them. -/
structure Spare (live : Snapshot) (s : Store) (node : Handle) (front rows back : List Handle) :
    Prop where
  sound : s.Sound
  tracked : s.contains node = true
  nonempty : rows ≠ []
  kids : s.children node = front ++ rows ++ back
  unplaced : ∀ y, Placed live s y → ¬ ∃ v ∈ rows, Under s.parent y v

/-- A tracked node that may be moved, because its live parent is in place and is
    not its recorded one. -/
structure Stray (live : Snapshot) (s : Store) (h node : Handle) : Prop where
  fits : Fits live s
  placed : Placed live s node
  parent : live.parent h = some node
  tracked : s.contains h = true
  elsewhere : s.parent h ≠ some node

/-- Live children of a node cannot be inserted together with the live child that
    follows them: it is tracked, or it does not come before the recorded one that
    follows. -/
def Full (live : Snapshot) (s : Store) (node : Handle) (front batch back : List Handle) : Prop :=
  ∃ later, live.children node = front ++ batch ++ later ∧
    ∀ n ∈ later.head?, s.contains n = true ∨ ∃ x ∈ back.head?, x ≤ n

/-- Live children of a node in place that may be inserted, because neither they
    nor any node below them is tracked, and they fit between their neighbours.
    There are as many of them as possible. -/
structure Fresh (live : Snapshot) (s : Store) (node : Handle) (front batch back : List Handle) :
    Prop where
  fits : Fits live s
  placed : Placed live s node
  nonempty : batch ≠ []
  kids : s.children node = front ++ back
  ascending : Handle.Ascending (front ++ batch ++ back)
  parent : ∀ b ∈ batch, live.parent b = some node
  new : ∀ b ∈ batch, s.contains b = false
  below : ∀ v ∈ batch.flatMap live.descendants, s.contains v = false
  full : Full live s node front batch back

/-- One act of a pass, with the records before and after it and what it
    announces in between. -/
inductive Act (live : Snapshot) : Store → List Notice → Store → Prop
  /-- Rows go away with all below them. -/
  | removal (s t : Store) (i : Index) (front rows back gone : List Handle)
      (spare : Spare live s i.node front rows back)
      (cuts : s.Cuts t fun x => ∃ v ∈ rows, Under s.parent x v)
      (untracked : ∀ h ∈ gone, t.contains h = false) :
      Act live s (removal i front.length (front.length + rows.length - 1) s t ++ farewell gone t) t
  /-- A node goes from one parent to another with all below it. -/
  | move (s t : Store) (i j : Index) (h : Handle) (front back front' back' : List Handle)
      (stray : Stray live s h j.node)
      (rows : s.children i.node = front ++ [h] ++ back)
      (rows' : t.children j.node = front' ++ [h] ++ back')
      (sound : t.Sound)
      (root : t.root = s.root)
      (links : ∀ x, t.parent x = if h = x then some j.node else s.parent x) :
      Act live s (TreeWatch.removal i front.length (front.length + 1 - 1) s (s.detach h).2 ++
        insertion j front'.length (front'.length + 1 - 1) (s.detach h).2 t) t
  /-- A batch comes with all that is live below it. -/
  | insertion (s t : Store) (i : Index) (front batch back : List Handle)
      (fresh : Fresh live s i.node front batch back)
      (planted : Store.Planted live i.node s batch t)
      (rows : t.children i.node = front ++ batch ++ back) :
      Act live s (TreeWatch.insertion i front.length (front.length + batch.length - 1) s t) t

/-- Acts one after the other, with what they announce. -/
inductive Course (live : Snapshot) : Store → List Notice → Store → Prop
  | nil (s : Store) : Course live s [] s
  | cons (s t u : Store) (trace rest : List Notice) (act : Act live s trace t)
      (course : Course live t rest u) : Course live s (trace ++ rest) u

section Courses

variable (live : Snapshot)

theorem Act.course (s t : Store) (trace : List Notice) (h : Act live s trace t) :
    Course live s trace t :=
  List.append_nil trace ▸ .cons s t t trace [] h (.nil t)

theorem Course.append (s t u : Store) (before after : List Notice) (h : Course live s before t)
    (h' : Course live t after u) : Course live s (before ++ after) u := by
  induction h with
  | nil s => exact h'
  | cons s m t trace rest act _ ih =>
      rw [List.append_assoc]
      exact .cons s m u trace _ act (ih h')

/-- Between two moments of a step a course of acts was run, and the report says
    what was announced. -/
structure Works (s s' : Step) : Prop where
  edits : Step.Edits s s'
  course : ∃ trace, s'.trace = s.trace ++ trace ∧ Course live s.store trace s'.store ∧
    Booked s.report trace s'.report

variable (s s' s'' : Step)

theorem Works.refl (hs : s.store.Sound) : Works live s s :=
  ⟨.refl s hs, [], (List.append_nil s.trace).symm, .nil s.store, .nil s.report⟩

theorem Works.sound (h : Works live s s') : s'.store.Sound := h.edits.sound

theorem Works.trans (h : Works live s s') (h' : Works live s' s'') : Works live s s'' := by
  rcases h.course with ⟨before, hbefore, hcourse, hbooked⟩
  rcases h'.course with ⟨after, hafter, hcourse', hbooked'⟩
  refine ⟨h.edits.trans _ _ _ h'.edits, before ++ after, ?_, hcourse.append _ _ _ _ _ _ hcourse',
    hbooked.append _ _ _ _ _ hbooked'⟩
  rw [hafter, hbefore, List.append_assoc]

/-- Relocations are counted beside the acts. -/
theorem Works.relocated (n : Nat) (h : Works live s s') :
    Works live s { s' with report := { s'.report with relocated := n } } := by
  rcases h with ⟨hedits, trace, htrace, hcourse, hbooked⟩
  exact ⟨hedits.trans _ _ _ (.of_eq _ _ hedits.sound rfl rfl rfl rfl), trace, htrace, hcourse,
    hbooked.relocated _ _ _ n⟩

end Courses

section Told

variable (r r' : Report) (i j : Index) (first last first' last' : Nat) (s t u : Store)

-- The rows that go with a removal, and that come with it.
theorem removed_removal : (removal i first last s t).flatMap Notice.removed =
    s.rowsAt (some i) first last := List.append_nil _

theorem inserted_removal : (removal i first last s t).flatMap Notice.inserted = [] := rfl

-- The rows that go with an insertion, and that come with it.
theorem removed_insertion : (insertion i first last s t).flatMap Notice.removed = [] := rfl

theorem inserted_insertion : (insertion i first last s t).flatMap Notice.inserted =
    t.rowsAt (some i) first last := List.append_nil _

-- Only the first half of a removal is about rows that go away.
theorem shown_removal (i : Index) (first last : Nat) (s t : Store) (rest : List Notice)
    (hrest : rest.flatMap Notice.removed = []) :
    ∀ n ∈ removal i first last s t ++ rest, n.removed ≠ [] → n.store = s := by
  intro n hn hne
  rcases List.mem_append.mp hn with hn | hn
  · rcases List.mem_pair.mp hn with rfl | rfl
    · rfl
    · exact absurd rfl hne
  · exact absurd (List.flatMap_eq_nil_iff.mp hrest n hn) hne

/-- A removal of rows, filed with its edit and the number of rows. -/
theorem booked_removal (hr : r' = { r with
      script := r.script ++ [.remove i.node first last]
      removed := r.removed + (s.rowsAt (some i) first last).length }) :
    Booked r (removal i first last s t) r' := by
  subst hr
  refine ⟨rfl, ?_, rfl, rfl, (Bool.or_false r.reset).symm, fun n hn h he => ?_⟩
  · rw [removed_removal]
  · rcases List.mem_pair.mp hn with rfl | rfl
    · exact absurd he Event.noConfusion
    · exact absurd he Event.noConfusion

/-- An insertion of a batch, filed with its edit and the number of rows. -/
theorem booked_insertion (batch : List Handle) (hrows : t.rowsAt (some i) first last = batch)
    (hr : r' = { r with
      script := r.script ++ [.insert i.node first batch]
      inserted := r.inserted + batch.length }) :
    Booked r (insertion i first last s t) r' := by
  subst hr hrows
  refine ⟨rfl, rfl, ?_, rfl, (Bool.or_false r.reset).symm, fun n hn h he => ?_⟩
  · rw [inserted_insertion]
  · rcases List.mem_pair.mp hn with rfl | rfl
    · exact absurd he Event.noConfusion
    · exact absurd he Event.noConfusion

/-- A removal of rows of a tracked node announces them, and then the deletions. -/
theorem removeRows_told (isAlive : Handle → Bool) (m : Step) (hm : m.store.Sound)
    (node : Handle) (front rows back : List Handle) (hn : m.store.contains node = true)
    (hne : rows ≠ []) (hkids : m.store.children node = front ++ rows ++ back) :
    ∃ m' i gone, i.node = node ∧
      m.removeRows isAlive node front.length (front.length + rows.length - 1) = .ok m' ∧
      Step.Edits m m' ∧
      (m.store.Cuts m'.store fun x => ∃ v ∈ rows, Under m.store.parent x v) ∧
      m'.trace = m.trace ++ (removal i front.length (front.length + rows.length - 1) m.store
        m'.store ++ farewell gone m'.store) ∧
      Booked m.report (removal i front.length (front.length + rows.length - 1) m.store m'.store ++
        farewell gone m'.store) m'.report ∧
      ∀ x ∈ gone, m'.store.contains x = false := by
  rcases m.removeRows_spec isAlive hm node front rows back hn hne hkids with
    ⟨m', hrun, hedits, hcut⟩
  rcases m.parentIndex_spec node (Step.rowOf?_of_contains m.store hm node hn) with
    ⟨i, _, _, rfl, hindex⟩
  rcases m.removeRows_cases isAlive i.node _ _ m' hrun with
    rfl | ⟨under, out, gone, _, hstore, htrace, rfl, hunder, hle, _, hreport⟩
  · -- The rows did go away.
    rcases List.exists_mem_of_ne_nil rows hne with ⟨v, hv⟩
    have hvp : m'.store.parent v = some i.node := by
      rw [← hm.tree.mem_kids, hkids]
      exact List.mem_append_left _ (List.mem_append_right _ hv)
    have hvt := (m'.store.contains_iff v).mpr (Or.inr ⟨i.node, hvp⟩)
    exact absurd ⟨v, hv, Under.refl v⟩ ((hcut.contains_iff v).mp hvt).2
  · rw [hindex] at hunder
    subst hunder
    have hrows := m.store.rowsAt_eq i front rows back hkids hne
    have hpos : 0 < rows.length := List.length_pos_iff.mpr hne
    have hcount : front.length + rows.length - 1 + 1 - front.length = rows.length := by omega
    refine ⟨_, i, gone.1.filter fun x => !out.store.contains x && !isAlive x, rfl, hrun, hedits,
      hcut, ?_, ?_, fun x hx => ?_⟩
    · rw [Step.announceDeleted, htrace, ← hstore, List.append_assoc m.trace, List.append_assoc]
      rfl
    · exact (booked_removal m.report out.report i front.length (front.length + rows.length - 1)
        m.store out.store (by rw [hreport, hrows, hcount])).append _ _ _ _ _
        (out.booked_announceDeleted isAlive gone.1)
    · simp only [List.mem_filter, Bool.and_eq_true, Bool.not_eq_true'] at hx
      exact hx.2.1

/-- An insertion under a tracked node does nothing, or it announces the batch. -/
theorem insertRows_told (m m' : Step) (hm : m.store.Sound) (node : Handle) (first : Nat)
    (batch : List Handle) (fill : Snapshot) (hn : m.store.contains node = true)
    (hok : m.insertRows node first batch fill = .ok m') :
    m' = m ∨ ∃ i, i.node = node ∧ batch ≠ [] ∧
      m'.trace = m.trace ++ insertion i first (first + batch.length - 1) m.store m'.store ∧
      m'.store.rowsAt (some i) first (first + batch.length - 1) = batch ∧
      Booked m.report (insertion i first (first + batch.length - 1) m.store m'.store)
        m'.report := by
  rcases m.parentIndex_spec node (Step.rowOf?_of_contains m.store hm node hn) with
    ⟨i, _, _, rfl, hindex⟩
  rcases m.insertRows_cases i.node first batch fill m' hok with
    hsame | ⟨under, last, _, htrace, hunder, rfl, hne, hrows, hreport⟩
  · exact Or.inl hsame
  · rw [hindex] at hunder
    subst hunder
    have hpos : 0 < batch.length := List.length_pos_iff.mpr hne
    have hcount : first + batch.length - 1 + 1 - first = batch.length := by omega
    have hat : m'.store.rowsAt (some i) first (first + batch.length - 1) = batch := by
      rw [Store.rowsAt, hcount]
      exact hrows
    exact Or.inr ⟨i, rfl, hne, htrace.trans (List.append_assoc m.trace [_] [_]), hat,
      booked_insertion _ _ i _ _ _ _ batch hat hreport⟩

/-- A move of a tracked node to another parent announces that its row goes and comes
    again. -/
theorem relocate_told (m : Step) (hm : m.store.Sound) (h node q : Handle)
    (hq : m.store.parent h = some q) (hn : m.store.contains node = true)
    (hnh : ¬ Under m.store.parent node h) (hne : q ≠ node) :
    ∃ m' i j front back front' back', i.node = q ∧ j.node = node ∧
      m.relocate h node = .ok (true, m') ∧ Step.Edits m m' ∧ m'.store.root = m.store.root ∧
      (∀ x, m'.store.parent x = if h = x then some node else m.store.parent x) ∧
      m.store.children i.node = front ++ [h] ++ back ∧
      m'.store.children j.node = front' ++ [h] ++ back' ∧
      m'.trace = m.trace ++
        (removal i front.length (front.length + 1 - 1) m.store (m.store.detach h).2 ++
          insertion j front'.length (front'.length + 1 - 1) (m.store.detach h).2 m'.store) ∧
      Booked m.report (removal i front.length (front.length + 1 - 1) m.store (m.store.detach h).2 ++
          insertion j front'.length (front'.length + 1 - 1) (m.store.detach h).2 m'.store)
        m'.report ∧ m'.report.relocated = m.report.relocated + 1 := by
  rcases m.relocate_spec hm h node q hq hn hnh with ⟨m', hrun, hedits, hroot, hup⟩
  have hqt := (m.store.contains_iff_held q).mpr (hm.tree.held_up h q hq)
  rcases m.parentIndex_spec q (Step.rowOf?_of_contains m.store hm q hqt) with
    ⟨i, _, _, rfl, hindex⟩
  rcases m.relocate_cases h node (true, m') hrun with
    hsame | ⟨source, oldRow, row, under, under', mid, hsource, hstore, htrace, hold, hrow, hunder,
      hmid, hunder', hreport⟩
  · -- The node did get another parent.
    have hmoved := hup h
    rw [if_pos rfl, show m' = m from hsame, hq, Option.some.injEq] at hmoved
    exact absurd hmoved hne
  · rw [hq, Option.some.injEq] at hsource
    subst hsource
    rw [hindex] at hunder
    have hpne : h ≠ node := by
      rintro rfl
      exact hnh (Under.refl h)
    have hrow' := hm.rowOf?_detach m.store h i.node node hq hn hpne
    rcases mid.parentIndex_spec node (hmid ▸ hrow') with ⟨j, _, _, rfl, hindex'⟩
    rw [hindex'] at hunder'
    rcases hm.rowOf?_of_parent m.store h i.node hq with ⟨front, back, hkids, hfront⟩
    rw [hfront, Option.some.injEq] at hold
    subst hunder hunder' hold hrow
    have hkids' := (m.store.detach h).2.children_linked j.node h
    rw [← show m'.store = _ from hstore] at hkids'
    have hone := List.cons_ne_nil h []
    refine ⟨m', i, j, front, back, _, _, rfl, rfl, hrun, hedits, hroot, hup, hkids, hkids', ?_, ?_,
      congrArg Report.relocated hreport⟩
    · rw [show m'.trace = _ from htrace, List.append_assoc, List.append_assoc, List.append_assoc]
      rfl
    · have hout : (m.store.rowsAt (some i) front.length (front.length + 1 - 1)).length = 1 :=
        congrArg List.length (m.store.rowsAt_eq i front [h] back hkids hone)
      have hin := m'.store.rowsAt_eq j _ [h] _ hkids' hone
      rw [show m'.report = _ from hreport]
      refine Booked.relocated _ _ _ _ (Booked.append m.report _ _ _ _
        (booked_removal m.report _ i front.length (front.length + 1 - 1) m.store _ rfl)
        (booked_insertion _ { m.report with
          script := _
          removed := _
          inserted := _ } j _ _ _ _ [h] hin ?_))
      rw [hout]
      rfl

end Told

section Acts

variable (live : Snapshot) (s : Step)

/-- The rows are removed. -/
theorem Spare.removeRows (node : Handle) (front rows back : List Handle)
    (h : Spare live s.store node front rows back) :
    ∃ s', s.removeRows live.contains node front.length (front.length + rows.length - 1) = .ok s' ∧
      Works live s s' ∧ (s.store.Cuts s'.store fun x => ∃ v ∈ rows, Under s.store.parent x v) ∧
      Took s s' [⟨node, front.length, rows⟩] := by
  rcases removeRows_told live.contains s h.sound node front rows back h.tracked h.nonempty h.kids
    with ⟨s', i, gone, rfl, hrun, hedits, hcut, htold, hbooked, hgone⟩
  have hact := (Act.removal s.store s'.store i front rows back gone h hcut hgone).course live _ _ _
  have hrows := s.store.rowsAt_eq i front rows back h.kids h.nonempty
  refine ⟨s', hrun, ⟨hedits, _, htold, hact, hbooked⟩, hcut, _, htold, ?_⟩
  rw [List.filterMap_append, taken_farewell, List.append_nil]
  exact congrArg (fun rows' => [(_, rows')]) hrows

/-- The node that is moved has a recorded parent, and its live one is tracked and
    not below it. -/
theorem Stray.movable (s : Store) (hlive : live.Proper) (h node : Handle)
    (hst : Stray live s h node) :
    ∃ q, s.parent h = some q ∧ s.contains node = true ∧ ¬ Under s.parent node h ∧ q ≠ node := by
  -- The node has a live parent, so it is not the root.
  have hroot : s.root ≠ some h := hst.fits.root ▸ hlive.tree.root_ne h node hst.parent
  rcases ((s.contains_iff h).mp hst.tracked).resolve_left hroot with ⟨q, hq⟩
  refine ⟨q, hq, hst.fits.tracked_of_placed live s hlive node hst.placed
    (hlive.contains_of_parent live h node hst.parent).2, ?_, fun he => hst.elsewhere (he ▸ hq)⟩
  rw [hst.placed.under_iff live s node h]
  exact hlive.tree.acyclic h node hst.parent

/-- The node is moved. -/
theorem Stray.relocate (hlive : live.Proper) (h node : Handle) (hst : Stray live s.store h node) :
    ∃ s', s.relocate h node = .ok (true, s') ∧ Works live s s' ∧ s'.store.root = s.store.root ∧
      ∀ x, s'.store.parent x = if h = x then some node else s.store.parent x := by
  rcases hst.movable live s.store hlive h node with ⟨q, hq, hn, hnh, hne⟩
  rcases relocate_told s hst.fits.sound h node q hq hn hnh hne with
    ⟨s', i, j, front, back, front', back', rfl, rfl, hrun, hedits, hroot', hup, hkids, hkids',
      htrace, hbooked, _⟩
  have hact := Act.move s.store s'.store i j h front back front' back' hst hkids hkids' hedits.sound
    hroot' hup
  exact ⟨s', hrun, ⟨hedits, _, htrace, hact.course live _ _ _, hbooked⟩, hroot', hup⟩

/-- The batch is inserted. -/
theorem Fresh.insertRows (hlive : live.Proper) (node : Handle) (front batch back : List Handle)
    (h : Fresh live s.store node front batch back) :
    ∃ s', s.insertRows node front.length batch live = .ok s' ∧ Works live s s' ∧
      s.store.Planted live node batch s'.store ∧
      s'.store.children node = front ++ batch ++ back := by
  have hs := h.fits.sound
  rcases List.exists_mem_of_ne_nil batch h.nonempty with ⟨b, hb⟩
  have hn := h.fits.tracked_of_placed live s.store hlive node h.placed
    (hlive.contains_of_parent live b node (h.parent b hb)).2
  have hapart : ∀ a ∈ batch, ∀ b ∈ batch, b ∉ live.descendants a := by
    intro a ha b hb hmem
    rcases (hlive.mem_descendants_iff_ne live a b).mp hmem with ⟨hab, hu⟩
    exact hlive.tree.sibling_not_under node b a ((hlive.tree.mem_kids node b).mpr (h.parent b hb))
      ((hlive.tree.mem_kids node a).mpr (h.parent a ha)) hab hu
  have hclear : s.store.Clear batch live := by
    intro b hb v hv hc
    rw [h.below v (List.mem_flatMap.mpr ⟨b, hb, hv⟩)] at hc
    exact absurd hc Bool.false_ne_true
  rcases s.insertRows_spec hs node front batch back live hlive hn h.nonempty h.kids h.ascending
    h.new hapart hclear with ⟨s', hrun, hedits, hpl⟩
  have hkids := hpl.children_parent hs h.new (hclear.shuns hlive hn h.new) front back h.kids
    h.ascending
  refine ⟨s', hrun, ⟨hedits, ?_⟩, hpl, hkids⟩
  rcases insertRows_told s s' hs node _ batch live hn hrun with
    rfl | ⟨i, rfl, _, htrace, _, hbooked⟩
  · -- The batch did come.
    have hbt := (hpl.contains_iff b).mpr (Or.inr (Or.inl hb))
    rw [h.new b hb] at hbt
    exact absurd hbt Bool.false_ne_true
  · exact ⟨_, htrace,
      (Act.insertion s.store s'.store i front batch back h hpl hkids).course live _ _ _, hbooked⟩

/-- A single node is removed wherever it sits. -/
theorem Spare.removeNode (hs : s.store.Sound) (h p : Handle) (hp : s.store.parent h = some p)
    (hun : ∀ y, Placed live s.store y → ¬ Under s.store.parent y h) :
    ∃ s', s.removeNode live.contains h = .ok (true, s') ∧ Works live s s' ∧
      s.store.Cuts s'.store (Under s.store.parent · h) := by
  rcases hs.rowOf?_of_parent s.store h p hp with ⟨front, back, hkids, hrow⟩
  have hspare : Spare live s.store p front [h] back := by
    refine ⟨hs, (s.store.contains_iff_held p).mpr (hs.tree.held_up h p hp), List.cons_ne_nil h [],
      hkids, fun y hy hg => ?_⟩
    rcases hg with ⟨v, hv, hu⟩
    exact hun y hy (List.mem_singleton.mp hv ▸ hu)
  rcases hspare.removeRows live s p front [h] back with ⟨s', hrun, hworks, hcut, _⟩
  refine ⟨s', ?_, hworks, hcut.congr_gone fun x => ?_⟩
  · rw [List.length_singleton, Nat.add_sub_cancel] at hrun
    simp only [Step.removeNode, hp, hrow, hrun, bind, Except.bind, pure, Except.pure]
  · simp only [List.mem_singleton, exists_eq_left]

end Acts

/-- A record fits after a cut. -/
theorem Fits.cut (live : Snapshot) (s t : Store) (gone : Handle → Prop) (hs : Fits live s)
    (hcut : s.Cuts t gone) : Fits live t :=
  ⟨hcut.sound, hcut.root.trans hs.root, fun x hx => hs.live x ((hcut.contains_iff x).mp hx).1⟩

/-- An eviction is a course of removals. A node in place has tracked nodes above
    it, so it is under no node that is live below an untracked one. -/
theorem works_evict (live : Snapshot) (hlive : live.Proper) (batch nodes : List Handle)
    (hnodes : ∀ v ∈ nodes, v ∈ batch.flatMap live.descendants) (flag : Bool) (s : Step)
    (hfits : Fits live s.store)
    (hbatch : ∀ b ∈ batch, s.store.contains b = false ∧ live.contains b = true)
    (out : Bool × Step) (hok : nodes.foldlM (Step.evictNode live.contains) (flag, s) = .ok out) :
    Works live s out.2 := by
  induction nodes generalizing flag s with
  | nil =>
      rw [List.foldlM_nil] at hok
      exact Except.ok.inj hok ▸ .refl live s hfits.sound
  | cons h nodes ih =>
      rw [List.foldlM_cons] at hok
      have hrest : ∀ v ∈ nodes, v ∈ batch.flatMap live.descendants := fun v hv =>
        hnodes v (List.mem_cons_of_mem h hv)
      cases hp : s.store.parent h with
      | none =>
          rw [Step.evictNode_none live.contains flag s h hp] at hok
          exact ih hrest flag s hfits hbatch hok
      | some p =>
          rcases List.mem_flatMap.mp (hnodes h List.mem_cons_self) with ⟨b, hb, hhb⟩
          have hun := hfits.unplaced_below live s.store hlive b h (hbatch b hb).1
            (hbatch b hb).2 hhb
          rcases Spare.removeNode live s hfits.sound h p hp hun with ⟨s₁, hrem, hworks, hcut⟩
          rw [Step.evictNode_some live.contains flag s s₁ h p hp hrem] at hok
          have hcount := hworks.relocated live s s₁ (s₁.report.relocated + 1)
          refine hcount.trans live s _ out.2 (ih hrest true _
            (hfits.cut live s.store s₁.store _ hcut) (fun b hb => ?_) hok)
          exact ⟨(hcut.not_contains_iff b).mpr (Or.inl (hbatch b hb).1), (hbatch b hb).2⟩

end Pass

end TreeWatch
