import TreeWatch.Proofs.Departures
import TreeWatch.Proofs.Endings

/-!
# Reports and Traces Agree

Every step ends with a report of what it did, and whoever reads the report has not
seen the announcements. The two come from different places. Each change of a record
announces itself, adds to the script and counts its rows on its own, and passes and
notifications put changes together in many ways. This is where it is shown that
nothing is left out on any of them.

A report that recounts a trace has the script that the trace tells, pair by pair.
Its row counts are the sums of its script, which exist because no step announces
more rows than there are handles. A step that reports nothing has announced
nothing and left the record as it was.

## Main definitions

* `Recounts`: The report of a step says what the step announced.
* `Step.Recites`: A stretch of a step in which this goes on.

## Theorems

* `Recounts.of_booked`: A filed story is recounted.
* `PointEdit.EndsEntered.recites`, `PointEdit.EndsLeft.recites`,
  `PointEdit.EndsReparented.recites`: The notifications, whichever way they end.
* `steps_recount`: Every step from a sound record is recounted.
-/

namespace TreeWatch

/-- The report of a step that started with the record `s` says what the step
    announced. The trace tells the edits of the script and a reset if there was
    one, the counts are those of the script and of the announced deletions, and if
    nothing was done nothing was announced. -/
structure Recounts (s : Store) (s' : Step) : Prop where
  story : Narrates s s'.trace s'.report.script (if s'.report.reset then 1 else 0) s'.store
  removed : s'.report.script.removedRows = .ok s'.report.removed
  inserted : s'.report.script.insertedRows = .ok s'.report.inserted
  deleted : s'.report.deleted = s'.trace.countP Notice.isDeletion
  idle : s'.report.isNoop = true → s'.trace = [] ∧ s'.store = s

/-- A story that was filed from the start is recounted, if its rows fit a machine
    word and there was at most one reset. -/
theorem Recounts.of_booked (s : Store) (s' : Step) (script : Script) (resets : Nat)
    (hbooked : Booked {} s'.trace s'.report) (hstory : Narrates s s'.trace script resets s'.store)
    (hresets : resets ≤ 1)
    (hremoved : (s'.trace.flatMap Notice.removed).length < Text.wordBound)
    (hinserted : (s'.trace.flatMap Notice.inserted).length < Text.wordBound) : Recounts s s' := by
  have hscript : s'.report.script = script :=
    hbooked.script.trans ((List.nil_append _).trans hstory.script_eq)
  have hreset : (if s'.report.reset then 1 else 0) = resets := by
    have hcount := hstory.resets_eq
    rw [hbooked.reset, Bool.false_or]
    cases hany : s'.trace.any Notice.isReset with
    | false =>
        rw [List.countP_eq_zero.mpr (List.any_eq_false.mp hany)] at hcount
        exact hcount
    | true =>
        have hpos := List.countP_pos_iff.mpr (List.any_eq_true.mp hany)
        exact Nat.le_antisymm (hcount ▸ hpos) hresets
  have hall : Narrates s s'.trace s'.report.script (if s'.report.reset then 1 else 0)
      s'.store := by
    rw [hscript, hreset]
    exact hstory
  have hsums := hall.rowSums
  refine ⟨hall, ?_, ?_, hbooked.deleted.trans (Nat.zero_add _), fun hnoop => ?_⟩
  · rw [hsums.1 hremoved, hbooked.removed, Nat.zero_add]
  · rw [hsums.2 hinserted, hbooked.inserted, Nat.zero_add]
  · rw [Report.isNoop, Bool.and_eq_true, List.isEmpty_iff, Bool.not_eq_true'] at hnoop
    rw [hnoop.1, hnoop.2] at hall
    exact hall.idle

namespace Step

/-- Between two moments of a step a story was told and filed. Rows that went away
    did so once, at most one row came, and there was at most one reset. -/
def Recites (s s' : Step) : Prop :=
  ∃ trace script resets gone, s'.trace = s.trace ++ trace ∧ Booked s.report trace s'.report ∧
    Narrates s.store trace script resets s'.store ∧ resets ≤ 1 ∧ Withdraws s.store trace gone ∧
    (trace.flatMap Notice.inserted).length ≤ 1

namespace Recites

variable {s m s' : Step}

-- Nothing was told.
theorem refl (s : Step) : Recites s s :=
  ⟨[], [], 0, _, (List.append_nil s.trace).symm, .nil s.report, .nil s.store, Nat.zero_le 1,
    .of_nil s.store [] rfl, Nat.zero_le 1⟩

-- Relocations, conditions and the wish for a full pass are filed beside the story.
theorem filed (h : Recites s s') (report : Report) (hscript : report.script = s'.report.script)
    (hremoved : report.removed = s'.report.removed)
    (hinserted : report.inserted = s'.report.inserted)
    (hdeleted : report.deleted = s'.report.deleted) (hreset : report.reset = s'.report.reset) :
    Recites s { s' with report := report } := by
  rcases h with ⟨trace, script, resets, gone, htrace, hbooked, hrest⟩
  exact ⟨trace, script, resets, gone, htrace, ⟨hscript.trans hbooked.script,
    hremoved.trans hbooked.removed, hinserted.trans hbooked.inserted,
    hdeleted.trans hbooked.deleted, hreset.trans hbooked.reset, hbooked.gone⟩, hrest⟩

/-- Removals first. -/
theorem after (gone : Handle → Prop) (hstrips : Strips s m gone) (h : Recites m s') :
    Recites s s' := by
  rcases hstrips.told with ⟨before, script, hbefore, hbooked, hstory, hwithdraws, hnone⟩
  rcases h with
    ⟨after, script', resets, gone', hafter, hbooked', hstory', hresets, hwithdraws', hcount⟩
  refine ⟨before ++ after, script ++ script', 0 + resets, _, ?_, hbooked.append _ _ _ _ _ hbooked',
    hstory.append hstory', by omega, hwithdraws.append _ _ _ _ _ _ hstrips.cuts hwithdraws', ?_⟩
  · rw [hafter, hbefore, List.append_assoc]
  · rw [List.flatMap_append, hnone, List.nil_append]
    exact hcount

/-- A whole step that recites its story recounts it. -/
theorem recounts (s : Store) (hs : s.Sound) (h : Recites { store := s } s') : Recounts s s' := by
  rcases h with
    ⟨trace, script, resets, gone, htrace, hbooked, hstory, hresets, hwithdraws, hcount⟩
  have hall : s'.trace = trace := htrace
  subst hall
  refine .of_booked s s' script resets hbooked hstory hresets ?_ (hcount.trans_lt (by decide))
  exact Pass.rows_fit_of_parents _ _ _ hs.tree _ hwithdraws.nodup hwithdraws.parents

end Recites

/-- A single new row under a tracked node. -/
theorem recites_insertRows (s s' : Step) (hs : s.store.Sound) (parent top : Handle) (row : Nat)
    (fill : Snapshot) (hp : s.store.contains parent = true)
    (hok : s.insertRows parent row [top] fill = .ok s') : Recites s s' := by
  rcases Pass.insertRows_told s s' hs parent row [top] fill hp hok with
    rfl | ⟨i, rfl, hne, htrace, hrows, hbooked⟩
  · exact .refl s'
  · have hstory := Narrates.insertion s.store s'.store s'.store i row [top] [] [] 0 hne hrows
      (.nil s'.store)
    rw [List.append_nil] at hstory
    refine ⟨_, _, 0, _, htrace, hbooked, hstory, Nat.zero_le 1,
      .of_nil s.store _ (Pass.removed_insertion i _ _ _ _), ?_⟩
    rw [Pass.inserted_insertion, hrows]
    exact Nat.le_refl 1

/-- A replacement of the whole model. -/
theorem recites_reset (isAlive : Handle → Bool) (s : Step) (root : Option Handle)
    (fill : Snapshot) : Recites s (s.reset isAlive root fill) := by
  rcases s.reset_told isAlive root fill with ⟨gone, htrace, hbooked⟩
  have hstory := Narrates.reset s.store _ _ gone [] [] 0 (.nil (s.reset isAlive root fill).store)
  have hrows := Narrates.rows_of_replacement s.store (s.reset isAlive root fill).store gone []
  rw [List.append_nil] at hstory hrows
  refine ⟨_, _, 1, _, htrace, hbooked, hstory, Nat.le_refl 1, .of_nil s.store _ hrows.1, ?_⟩
  rw [hrows.2]
  exact Nat.zero_le 1

end Step

namespace PointEdit

open Step (Recites)

section Notifications

variable (source : Source) (node : Handle) (tally : Tally) (s : Step) (hs : s.store.Sound)
  (out : Tally × Step)

/-- The story of a node that enters. -/
theorem EndsEntered.recites (h : EndsEntered source node tally s out) : Recites s out.2 := by
  cases h with
  | stale | stray | barren => exact .refl s
  | lost => exact (Recites.refl s).filed _ rfl rfl rfl rfl rfl
  | adopted top => exact s.recites_reset source.isLive (some top) _
  | displaced parent top m _ _ _ _ hstrips =>
      exact .after _ hstrips ((Recites.refl m).filed _ rfl rfl rfl rfl rfl)
  | planted parent top m s' _ _ _ _ hstrips hparent hins =>
      exact .after _ hstrips
        (m.recites_insertRows s' hstrips.edits.sound parent top _ _ hparent hins)

/-- The story of a node that leaves. -/
theorem EndsLeft.recites (h : EndsLeft source node tally s out) : Recites s out.2 := by
  cases h with
  | untracked => exact .refl s
  | root => exact (s.recites_reset source.isLive none Snapshot.empty).filed _ rfl rfl rfl rfl rfl
  | cut m _ hstrips => exact .after _ hstrips (.refl m)

/-- The story of a node that moves. -/
theorem EndsReparented.recites (h : EndsReparented source node tally s out) :
    Recites s out.2 := by
  cases h with
  | entered _ _ h => exact h.recites source node tally s out
  | left _ _ _ h => exact h.recites source node tally s out
  | unmoved => exact .refl s
  | root => exact (Recites.refl s).filed _ rfl rfl rfl rfl rfl
  | moved m done relocated _ _ _ _ hstrips h =>
      exact .after _ hstrips ((h.recites source node tally m done).filed _ rfl rfl rfl rfl rfl)

include hs

theorem recites_entered (hok : entered source node tally s = .ok out) : Recites s out.2 :=
  (ends_entered source node tally s hs out hok).recites source node tally s out

theorem recites_left (hok : left source node tally s = .ok out) : Recites s out.2 :=
  (ends_left source node tally s hs out hok).recites source node tally s out

theorem recites_reparented (hok : reparented source node tally s = .ok out) : Recites s out.2 :=
  (ends_reparented source node tally s hs out hok).recites source node tally s out

end Notifications

end PointEdit

namespace Pass

/-- The report of a full pass recounts it. -/
theorem run_recounts (s : Store) (hs : s.Sound) (live : Snapshot) (hlive : live.Proper)
    (isStrict : Bool) : ∃ s', run isStrict live { store := s } = .ok s' ∧ Recounts s s' := by
  by_cases hroot : s.root = live.root
  · rcases run_works live hlive { store := s } hs hroot with ⟨s', hrun, hworks, _⟩
    rcases hworks.course with ⟨trace, htrace, hcourse, hbooked⟩
    have hall : s'.trace = trace := htrace
    subst hall
    rcases hcourse.narrates live _ _ _ with ⟨script, hstory⟩
    rcases hcourse.rows_fit live hlive _ _ _ hs with ⟨hremoved, hinserted⟩
    exact ⟨s', hrun isStrict,
      .of_booked s s' script 0 hbooked hstory (Nat.zero_le 1) hremoved hinserted⟩
  · rcases run_replaced live { store := s } hroot with ⟨s', gone, hrun, htrace, hbooked⟩
    have hstory := Narrates.reset s s'.store s'.store gone [] [] 0 (.nil s'.store)
    have hrows := Narrates.rows_of_replacement s s'.store gone []
    rw [List.nil_append] at htrace
    rw [List.append_nil] at hstory hrows
    rw [← htrace] at hbooked hstory hrows
    refine ⟨s', hrun isStrict, .of_booked s s' [] 1 hbooked hstory (Nat.le_refl 1) ?_ ?_⟩
    · rw [hrows.1]
      decide
    · rw [hrows.2]
      decide

end Pass

/-- Report and announcements of a step from a sound record agree: those of a pass,
    which succeeds, and those of a notification that does. -/
theorem steps_recount (s : Store) (hs : s.check = none) :
    (∀ live : Snapshot, live.Built → ∀ isStrict,
      ∃ s', Pass.run isStrict live { store := s } = .ok s' ∧ Recounts s s') ∧
    ∀ (source : Source) (node : Handle) (tally : Tally) (out : Tally × Step),
      (PointEdit.entered source node tally { store := s } = .ok out → Recounts s out.2) ∧
      (PointEdit.left source node tally { store := s } = .ok out → Recounts s out.2) ∧
      (PointEdit.reparented source node tally { store := s } = .ok out → Recounts s out.2) := by
  have hsound := s.check_eq_none_iff_sound.mp hs
  refine ⟨fun live hlive isStrict => Pass.run_recounts s hsound live (hlive.proper live) isStrict,
    fun source node tally out => ⟨fun hok => ?_, fun hok => ?_, fun hok => ?_⟩⟩
  · exact (PointEdit.recites_entered source node tally { store := s } hsound out hok).recounts s
      hsound
  · exact (PointEdit.recites_left source node tally { store := s } hsound out hok).recounts s hsound
  · exact (PointEdit.recites_reparented source node tally { store := s } hsound out hok).recounts s
      hsound

/-- A root with two children. -/
def abreast : Source where
  root := some ⟨1⟩
  children h := if h = ⟨1⟩ then [⟨2⟩, ⟨3⟩] else []
  parent h := if h = ⟨2⟩ ∨ h = ⟨3⟩ then some ⟨1⟩ else none
  isLive h := h = ⟨1⟩ ∨ h = ⟨2⟩ ∨ h = ⟨3⟩
  describe _ := none

-- The last node of the path moves up, once in a pass and once as a notification.
theorem steps_recount_of_path :
    Pass.threeInARow.check = none ∧
      (∃ s', Pass.run true (.ofEdges ⟨1⟩ [(⟨1⟩, ⟨2⟩), (⟨1⟩, ⟨3⟩)]) { store := Pass.threeInARow } =
        .ok s' ∧ Recounts Pass.threeInARow s') ∧
      ∃ out, PointEdit.reparented abreast ⟨3⟩ {} { store := Pass.threeInARow } = .ok out ∧
        out.2.report.script = [.remove ⟨2⟩ 0 0, .insert ⟨1⟩ 1 [⟨3⟩]] ∧
        Recounts Pass.threeInARow out.2 := by
  have hcheck : Pass.threeInARow.check = none := by decide +kernel
  rcases steps_recount Pass.threeInARow hcheck with ⟨hpasses, hnotifications⟩
  refine ⟨hcheck, hpasses _ (.ofEdges ⟨1⟩ _) true, ?_⟩
  have hscript : (PointEdit.reparented abreast ⟨3⟩ {} { store := Pass.threeInARow }).toOption.map
      (·.2.report.script) = some [.remove ⟨2⟩ 0 0, .insert ⟨1⟩ 1 [⟨3⟩]] := by
    decide +kernel
  cases hok : PointEdit.reparented abreast ⟨3⟩ {} { store := Pass.threeInARow } with
  | error f =>
      rw [hok] at hscript
      exact absurd hscript (Option.some_ne_none _).symm
  | ok out =>
      rw [hok] at hscript
      exact ⟨out, rfl, Option.some.inj hscript, (hnotifications abreast ⟨3⟩ {} out).2.2 hok⟩

end TreeWatch
