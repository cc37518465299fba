import TreeWatch.Proofs.Sparing

/-!
# Batches Are as Large as Possible

New siblings come in one insertion, not in several. If a pass inserts rows and
right after that inserts the rows next to them, then the first insertion was the
second half of a move. A run of new siblings can be interrupted by a move or a
removal, and by a sibling that is kept, but it is not cut in two.

For one act this says that its batch could not be continued (`Pass.Full`): the live
sibling that comes next is tracked, or a recorded row comes in between. Two
insertions one after the other would contradict this, since what the second one
brings is the continuation of the first.

## Main definitions

* `Pass.Inserts`: An insertion in a script, and what was announced before it.
* `Pass.Relocates`: What was announced before is that the node was taken from its
  old place.

## Theorems

* `Pass.Course.split_edit`: An edit belongs to one act of a course.
* `Pass.Course.insert_cases`: An insertion is half of a move, or brings a batch.
* `Pass.Fresh.not_continued`: A batch is not followed by its continuation.
* `Pass.run_batches`: All of this for the script of a pass.
-/

namespace TreeWatch

namespace Pass

/-- A script begins with the edits `before` and the insertion of `rows`. The trace
    announces what is in `told`, and then the insertion into the record `now`. The
    rows come in order, and none of them is tracked by then. -/
structure Inserts (trace : List Notice) (before : List Edit) (parent : Handle) (first : Nat)
    (rows : List Handle) (told : List Notice) (now : Store) : Prop where
  script : told.filterMap Notice.edit = before
  trace : ∃ i next rest, i.node = parent ∧
    trace = told ++ insertion i first (first + rows.length - 1) now next ++ rest
  ascending : Handle.Ascending rows
  new : ∀ h ∈ rows, now.contains h = false

/-- The last that was announced is that a tracked node was taken out from under
    another parent. Nothing was dropped that is recorded below it. -/
def Relocates (told : List Notice) (now : Store) (h parent : Handle) : Prop :=
  ∃ earlier i row s, told = earlier ++ removal i row row s now ∧ now = (s.detach h).2 ∧
    s.contains h = true ∧ s.parent h = some i.node ∧ i.node ≠ parent ∧
    s.rowsAt (some i) row row = [h]

-- An edit in a list that was put together is in one part or in the other.
theorem split_filterMap {α β : Type} (f : α → Option β) (xs ys : List α) (before after : List β)
    (b : β) (h : (xs ++ ys).filterMap f = before ++ b :: after) :
    (∃ mid, xs.filterMap f = before ++ b :: mid ∧ after = mid ++ ys.filterMap f) ∨
      ∃ mid, before = xs.filterMap f ++ mid ∧ ys.filterMap f = mid ++ b :: after := by
  rw [List.filterMap_append] at h
  exact split_append _ _ before after b h

-- An insertion counts as an edit when its rows have come.
theorem edits_insertion (i : Index) (first last : Nat) (s t : Store) (rows : List Handle)
    (hrows : t.rowsAt (some i) first last = rows) :
    (insertion i first last s t).filterMap Notice.edit = [.insert i.node first rows] :=
  hrows ▸ rfl

section Courses

variable (live : Snapshot)

-- No act goes by without an edit.
theorem Act.edits_ne_nil (s t : Store) (trace : List Notice) (h : Act live s trace t) :
    trace.filterMap Notice.edit ≠ [] := by
  cases h with
  | removal _ i front rows back gone _ _ _ => exact List.cons_ne_nil _ _
  | move _ i j h front back front' back' _ _ _ _ _ _ => exact List.cons_ne_nil _ _
  | insertion _ i front batch back _ _ _ => exact List.cons_ne_nil _ _

/-- A course without an edit is empty. -/
theorem Course.eq_of_no_edit (s t : Store) (trace : List Notice) (h : Course live s trace t)
    (hno : trace.filterMap Notice.edit = []) : t = s := by
  cases h with
  | nil => rfl
  | cons _ m _ trace rest act _ =>
      rw [List.filterMap_append, List.append_eq_nil_iff] at hno
      exact absurd hno.1 (act.edits_ne_nil live s m trace)

/-- Each edit of a course belongs to one of its acts. -/
theorem Course.split_edit (s u : Store) (trace : List Notice) (h : Course live s trace u)
    (before after : List Edit) (e : Edit)
    (he : trace.filterMap Notice.edit = before ++ e :: after) :
    ∃ told act rest s' t front back, trace = told ++ act ++ rest ∧ Course live s told s' ∧
      Act live s' act t ∧ Course live t rest u ∧
      act.filterMap Notice.edit = front ++ e :: back ∧
      before = told.filterMap Notice.edit ++ front ∧
      after = back ++ rest.filterMap Notice.edit := by
  induction h generalizing before with
  | nil s => exact absurd he.symm (List.append_ne_nil_of_right_ne_nil _ (List.cons_ne_nil _ _))
  | cons s t u act rest hact hrest ih =>
      rcases split_filterMap _ act rest before after e he with
        ⟨mid, hfirst, hafter⟩ | ⟨mid, hbefore, hlast⟩
      · exact ⟨[], act, rest, s, t, before, mid, rfl, .nil s, hact, hrest, hfirst, rfl, hafter⟩
      · rcases ih mid hlast with
          ⟨told, act', rest', s', t', front, back, rfl, htold, hact', hrest', hedits, rfl, hafter⟩
        refine ⟨act ++ told, act', rest', s', t', front, back, ?_, .cons s t s' act told hact htold,
          hact', hrest', hedits, ?_, hafter⟩
        · simp only [List.append_assoc]
        · rw [hbefore, List.filterMap_append, List.append_assoc]

/-- An insertion in a course is the second half of a move, or an act of its own that
    brings a batch. -/
theorem Course.insert_cases (s u : Store) (trace : List Notice) (hc : Course live s trace u)
    (before after : List Edit) (parent : Handle) (first : Nat) (rows : List Handle)
    (he : trace.filterMap Notice.edit = before ++ .insert parent first rows :: after) :
    ∃ told now i next rest, i.node = parent ∧
      trace = told ++ insertion i first (first + rows.length - 1) now next ++ rest ∧
      told.filterMap Notice.edit = before ∧ rest.filterMap Notice.edit = after ∧
      Course live next rest u ∧
      ((∃ h, rows = [h] ∧ now.contains h = false ∧ Relocates told now h parent) ∨
        ∃ front back, front.length = first ∧ Course live s told now ∧
          Fresh live now parent front rows back ∧ Store.Planted live parent now rows next ∧
          next.children parent = front ++ rows ++ back) := by
  rcases hc.split_edit live s u trace before after _ he with
    ⟨told, act, rest, s', t, front, back, rfl, htold, hact, hrest, hedits, rfl, rfl⟩
  cases hact with
  | removal _ i _ _ _ gone _ _ _ =>
      rw [List.filterMap_append, edits_farewell, List.append_nil] at hedits
      exact absurd (split_singleton _ _ front back hedits).2.1 Edit.noConfusion
  | move _ i j h front' back' front'' back'' hst hrows hrows' _ _ _ =>
      have hq : s'.parent h = some i.node := by
        rw [← hst.fits.sound.tree.mem_kids, hrows]
        exact List.mem_append_left _ (List.mem_append_right _ (List.mem_singleton_self h))
      have hout : (s'.detach h).2.contains h = false := by
        rw [← Bool.not_eq_true, hst.contains_detach live s' h i.node j.node hq]
        exact fun hh => hh.2 rfl
      have hat := t.rowsAt_eq j front'' [h] back'' hrows' (List.cons_ne_nil h [])
      rw [List.filterMap_append, edits_insertion j _ (front''.length + 1 - 1) _ t [h] hat] at hedits
      rcases split_pair _ _ _ front back hedits with ⟨_, hinsert, _⟩ | ⟨rfl, hinsert, rfl⟩
      · exact absurd hinsert Edit.noConfusion
      · rw [Edit.insert.injEq] at hinsert
        rcases hinsert with ⟨rfl, rfl, rfl⟩
        have htaken : Relocates (told ++ removal i front'.length front'.length s' (s'.detach h).2)
            (s'.detach h).2 h j.node := by
          refine ⟨told, i, front'.length, s', rfl, rfl, hst.tracked, hq, ?_, ?_⟩
          · exact fun he => hst.elsewhere (he ▸ hq)
          · exact s'.rowsAt_eq i front' [h] back' hrows (List.cons_ne_nil h [])
        refine ⟨_, _, j, t, rest, rfl, ?_, ?_, rfl, hrest, Or.inl ⟨h, rfl, hout, htaken⟩⟩
        · simp only [List.append_assoc, List.length_singleton, Nat.add_sub_cancel]
        · rw [List.filterMap_append]
          rfl
  | insertion _ i front' batch back' hfresh hpl hkids =>
      have hat := t.rowsAt_eq i front' batch back' hkids hfresh.nonempty
      rw [edits_insertion i _ _ _ t batch hat] at hedits
      rcases split_singleton _ _ front back hedits with ⟨rfl, hinsert, rfl⟩
      rw [Edit.insert.injEq] at hinsert
      rcases hinsert with ⟨rfl, rfl, rfl⟩
      exact ⟨told, s', i, t, rest, rfl, rfl, (List.append_nil _).symm, rfl, hrest,
        Or.inr ⟨front', back', rfl, htold, hfresh, hpl, hkids⟩⟩

/-- A batch is not followed by an insertion that continues it. The live sibling that
    the second insertion begins with is new and fits, so it would have been in
    the batch. -/
theorem Fresh.not_continued (s t u : Store) (rest : List Notice) (node : Handle)
    (front batch back : List Handle) (h : Fresh live s node front batch back)
    (hpl : Store.Planted live node s batch t) (hkids : t.children node = front ++ batch ++ back)
    (hrest : Course live t rest u) (rows : List Handle) (after : List Edit) :
    rest.filterMap Notice.edit ≠ .insert node (front.length + batch.length) rows :: after := by
  intro he
  rcases hrest.insert_cases live t u rest [] after node _ rows he with
    ⟨told, now, _, _, _, _, _, htold, _, _, hcases⟩
  rcases hcases with
    ⟨_, _, _, earlier, i, row, _, rfl, _⟩ | ⟨front', back', hlen, hcourse, hnext, _, _⟩
  · rw [List.filterMap_append] at htold
    exact absurd (List.append_eq_nil_iff.mp htold).2 (List.cons_ne_nil _ _)
  · have hnow := hcourse.eq_of_no_edit live t now told htold
    subst hnow
    -- The second batch begins where the first one ended.
    have hsame := hkids.symm.trans hnext.kids
    rcases List.append_inj hsame (by rw [List.length_append, hlen]) with ⟨rfl, rfl⟩
    rcases List.exists_cons_of_ne_nil hnext.nonempty with ⟨n, more, rfl⟩
    rcases h.full with ⟨later, hlater, hstop⟩
    rcases hnext.full with ⟨later', hlater', _⟩
    rw [hlater, List.append_assoc _ (n :: more), List.append_cancel_left_eq] at hlater'
    rcases hstop n (by rw [hlater']; rfl) with htracked | ⟨x, hx, hle⟩
    · have hnew := hnext.new n List.mem_cons_self
      rw [(hpl.contains_iff n).mpr (Or.inl htracked)] at hnew
      exact Bool.noConfusion hnew
    · have hlt := (List.pairwise_append.mp hnext.ascending).2.2 n
        (List.mem_append_right _ List.mem_cons_self) x (List.mem_of_mem_head? hx)
      exact lt_irrefl n (lt_of_lt_of_le hlt hle)

end Courses

/-- New siblings come in one insertion. Each insertion in the script of a pass that
    keeps the root brings rows in order that are not tracked, and it is the second
    half of a move or brings as many siblings as possible. Of two insertions next to
    each other, without another edit in between, the first one is the second half
    of a move. -/
theorem run_batches (s : Store) (hs : s.check = none) (live : Snapshot) (hlive : live.Built)
    (hroot : s.root = live.root) (isStrict : Bool) :
    ∃ s', run isStrict live { store := s } = .ok s' ∧
      (∀ before parent first rows after,
        s'.report.script = before ++ .insert parent first rows :: after →
          ∃ told now, Inserts s'.trace before parent first rows told now ∧
            ((∃ h, rows = [h] ∧ Relocates told now h parent) ∨
              ∃ front back, now.children parent = front ++ back ∧ front.length = first ∧
                Full live now parent front rows back)) ∧
      ∀ before parent first rows next after,
        s'.report.script = before ++ .insert parent first rows ::
          .insert parent (first + rows.length) next :: after →
          ∃ told now h, Inserts s'.trace before parent first rows told now ∧ rows = [h] ∧
            Relocates told now h parent := by
  have hsound := s.check_eq_none_iff_sound.mp hs
  rcases run_works live (hlive.proper live) { store := s } hsound hroot with ⟨s', hrun, hworks, _⟩
  rcases hworks.course with ⟨trace, htrace, hcourse, hbooked⟩
  rw [List.nil_append] at htrace
  subst htrace
  have hscript : s'.report.script = s'.trace.filterMap Notice.edit := hbooked.script
  have hcases := fun before parent first rows after he =>
    hcourse.insert_cases live s s'.store s'.trace before after parent first rows
      (hscript.symm.trans he)
  refine ⟨s', hrun isStrict, fun before parent first rows after he => ?_,
    fun before parent first rows next after he => ?_⟩
  · rcases hcases before parent first rows after he with
      ⟨told, now, i, next, rest, hi, htrace, htold, _, _, hcase⟩
    rcases hcase with ⟨h, rfl, hout, hmove⟩ | ⟨front, back, hfront, _, hfresh, _, _⟩
    · refine ⟨told, now, ⟨htold, ⟨i, next, rest, hi, htrace⟩, List.pairwise_singleton _ h, ?_⟩,
        Or.inl ⟨h, rfl, hmove⟩⟩
      exact fun x hx => List.mem_singleton.mp hx ▸ hout
    · have hrows := (List.pairwise_append.mp (List.pairwise_append.mp hfresh.ascending).1).2.1
      exact ⟨told, now, ⟨htold, ⟨i, next, rest, hi, htrace⟩, hrows, hfresh.new⟩,
        Or.inr ⟨front, back, hfresh.kids, hfront, hfresh.full⟩⟩
  · rcases hcases before parent first rows _ he with
      ⟨told, now, i, m, rest, hi, htrace, htold, hafter, hrest, hcase⟩
    rcases hcase with ⟨h, rfl, hout, hmove⟩ | ⟨front, back, hfront, _, hfresh, hpl, hkids⟩
    · refine ⟨told, now, h, ⟨htold, ⟨i, m, rest, hi, htrace⟩, List.pairwise_singleton _ h, ?_⟩, rfl,
        hmove⟩
      exact fun x hx => List.mem_singleton.mp hx ▸ hout
    · rw [← hfront] at hafter
      exact absurd hafter (hfresh.not_continued live now m s'.store rest parent front rows back hpl
        hkids hrest next after)

/-- A node with two children, the second of which has a child of its own. -/
def besideAPair : Store :=
  (((Store.ofRoot (some ⟨1⟩)).link ⟨1⟩ ⟨2⟩).link ⟨1⟩ ⟨50⟩).link ⟨50⟩ ⟨25⟩

-- Of three nodes that come in between, the middle one was tracked already.
theorem run_batches_of_interrupted :
    let live := Snapshot.ofEdges ⟨1⟩ ([2, 20, 25, 30, 50].map fun n => (⟨1⟩, ⟨n⟩))
    let before := [.insert ⟨1⟩ 1 [⟨20⟩], .remove ⟨50⟩ 0 0]
    besideAPair.check = none ∧ besideAPair.root = live.root ∧
      ∃ s', run true live { store := besideAPair } = .ok s' ∧
        s'.report.script = before ++ [.insert ⟨1⟩ 2 [⟨25⟩], .insert ⟨1⟩ 3 [⟨30⟩]] ∧
        ∃ told now h, Inserts s'.trace before ⟨1⟩ 2 [⟨25⟩] told now ∧ [⟨25⟩] = [h] ∧
          Relocates told now h ⟨1⟩ := by
  intro live before
  have hcheck : besideAPair.check = none := by decide +kernel
  have hroot : besideAPair.root = live.root := by decide +kernel
  have hscript : (run true live { store := besideAPair }).toOption.map (·.report.script) =
      some (before ++ [.insert ⟨1⟩ 2 [⟨25⟩], .insert ⟨1⟩ 3 [⟨30⟩]]) := by decide +kernel
  rcases run_batches besideAPair hcheck live (.ofEdges ⟨1⟩ _) hroot true with
    ⟨s', hrun, _, hnext⟩
  rw [hrun] at hscript
  have hscript' := Option.some.inj hscript
  exact ⟨hcheck, hroot, s', hrun, hscript', hnext before ⟨1⟩ 2 [⟨25⟩] [⟨30⟩] [] hscript'⟩

end Pass

end TreeWatch
