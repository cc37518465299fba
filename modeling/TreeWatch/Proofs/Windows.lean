import TreeWatch.Coalescer
import TreeWatch.Proofs.Table

/-!
# Windows of Gathered Changes

A coalescer keeps one set of kinds for each node and the instant at which its
window opened. Neither says where it comes from. The reference here forgets
nothing: it keeps each recorded change by itself until a call drops its node
or releases everything (`waiting`), and it finds the beginning of the window
in the calls that were made (`Opened`).

Both descriptions are kept in step by every call. The sets of a coalescer are
the unions of the kinds that wait (`Gathers`), so something is gathered exactly
as long as some change waits. The window is open exactly as long as something
is gathered, hence it closes by itself with the last change that is dropped,
and the next change opens a new one.

When instants do not go back, all that waits was recorded after the window had
opened. That is why a window that has passed leaves no old change behind.

## Main definitions

* `Coalescer.Call`: What can be asked of a coalescer.
* `Coalescer.waiting`: The changes that were neither dropped nor released.
* `Coalescer.Change.batch`: Changes put together by node.
* `Coalescer.Opened`: The instant at which the open window began.
* `Coalescer.Faithful`: A coalescer agrees with the reference.

## Theorems

* `Coalescer.Gathers.run`: A call keeps the sets in step.
* `Coalescer.Gathers.toList_eq`: What is gathered is one batch.
* `Coalescer.opened_append`: A call opens a window, keeps it open or closes it.
* `Coalescer.deadlineUntil_eq_error_iff`: Which clock does not get to a deadline.
* `Coalescer.faithful_after`: A coalescer agrees with the reference after any
  calls.
-/

namespace TreeWatch

namespace Attributes

/-- The kinds that are in any set of a list. -/
def unions (sets : List Attributes) : Attributes := sets.foldl union none

theorem unions_append (sets : List Attributes) (a : Attributes) :
    unions (sets ++ [a]) = (unions sets).union a := by
  rw [unions, List.foldl_append]
  rfl

end Attributes

namespace Coalescer

/-- A change that was recorded. -/
structure Change where
  node : Handle
  kinds : Attributes
  instant : Nat
deriving DecidableEq

namespace Change

/-- The kinds of all changes of one node. -/
def kindsOf (h : Handle) (changes : List Change) : List Attributes :=
  (changes.filter (·.node = h)).map kinds

/-- The kinds of all changes of one node as one set, if there are any. -/
def kindsFor (h : Handle) (changes : List Change) : Option Attributes :=
  if kindsOf h changes = [] then none else some (Attributes.unions (kindsOf h changes))

/-- Changes put together by node: each node that changed once, in handle order,
    with all kinds of its changes. -/
def batch (changes : List Change) : List (Handle × Attributes) :=
  (Handle.ascending (changes.map node)).map fun h => (h, Attributes.unions (kindsOf h changes))

end Change

/-- What can be asked of a coalescer. -/
inductive Call where
  | record (node : Handle) (kinds : Attributes) (now : Nat)
  | forget (node : Handle)
  | retain (keep : Handle → Bool)
  | flush
  | flushDue (now : Nat)

namespace Call

/-- What a call releases, and the coalescer after it. -/
def run (c : Coalescer) : Call → List (Handle × Attributes) × Coalescer
  | record node kinds now => ([], c.record node kinds now)
  | forget node => ([], c.forget node)
  | retain keep => ([], c.retain keep)
  | flush => c.flush
  | flushDue now => c.flushDue now

/-- The change that a call records. A change of nothing is none. -/
def change? : Call → Option Change
  | record node kinds now => if kinds.isEmpty then none else some ⟨node, kinds, now⟩
  | _ => none

/-- The instant that a call is given. -/
def instant? : Call → Option Nat
  | record _ _ now => some now
  | flushDue now => some now
  | _ => none

/-- The call releases all that waits: in any case, or because no time is left of
    the window. -/
def releases (c : Coalescer) : Call → Bool
  | flush => true
  | flushDue now => c.timeLeft now = some 0
  | _ => false

/-- The call neither drops the changes of a node nor releases them. -/
def spares (c : Coalescer) (h : Handle) : Call → Bool
  | record _ _ _ => true
  | forget node => node ≠ h
  | retain keep => keep h
  | flush => false
  | flushDue now => c.timeLeft now ≠ some 0

end Call

/-- The coalescer after several calls. -/
def after (c : Coalescer) : List Call → Coalescer
  | [] => c
  | call :: rest => (call.run c).2.after rest

/-- The changes that wait after several calls, oldest first, if `changes` waited
    before: all that were recorded and neither dropped nor released since. -/
def waiting (c : Coalescer) (changes : List Change) : List Call → List Change
  | [] => changes
  | call :: rest =>
    waiting (call.run c).2 (changes.filter (call.spares c ·.node) ++ call.change?.toList) rest

/-- The window that is open after some calls began at `t`: a change was recorded
    then while nothing was gathered, and something is gathered ever since. -/
def Opened (delay : Nat) (calls : List Call) (t : Nat) : Prop :=
  ∃ before call change rest, calls = before ++ call :: rest ∧ call.change? = some change ∧
    change.instant = t ∧ ((ofDelay delay).after before).hasPending = false ∧
    ∀ mid, mid <+: rest → ((ofDelay delay).after (before ++ call :: mid)).hasPending = true

/-- The sets of a coalescer are the unions of what waits. -/
def Gathers (c : Coalescer) (changes : List Change) : Prop :=
  ∀ h, c.pendingFor h = Change.kindsFor h changes

section Runs

variable (c : Coalescer) (changes : List Change)

theorem after_append (calls more : List Call) :
    c.after (calls ++ more) = (c.after calls).after more := by
  induction calls generalizing c with
  | nil => rfl
  | cons call rest ih => exact ih (call.run c).2

theorem waiting_append (calls more : List Call) :
    waiting c changes (calls ++ more) = waiting (c.after calls) (waiting c changes calls) more := by
  induction calls generalizing c changes with
  | nil => rfl
  | cons call rest ih => exact ih (call.run c).2 _

/-- What waits was there before or was recorded. -/
theorem mem_waiting (calls : List Call) (ch : Change) (hch : ch ∈ waiting c changes calls) :
    ch ∈ changes ∨ ∃ call ∈ calls, call.change? = some ch := by
  induction calls generalizing c changes with
  | nil => exact Or.inl hch
  | cons call rest ih =>
      rcases ih _ _ hch with hm | ⟨later, hlater, heq⟩
      · rcases List.mem_append.mp hm with hm | hm
        · exact Or.inl (List.mem_filter.mp hm).1
        · exact Or.inr ⟨call, List.mem_cons_self, Option.mem_toList.mp hm⟩
      · exact Or.inr ⟨later, List.mem_cons_of_mem call hlater, heq⟩

-- A change is recorded at the instant of its call, and it is not one of nothing.
theorem change?_spec (call : Call) (ch : Change) (h : call.change? = some ch) :
    call.instant? = some ch.instant ∧ ch.kinds.isEmpty = false := by
  cases call with
  | record node kinds now =>
      simp only [Call.change?] at h
      by_cases hk : kinds.isEmpty = true
      · rw [if_pos hk] at h
        exact absurd h (by simp only [reduceCtorEq, not_false_eq_true])
      · rw [if_neg hk, Option.some.injEq] at h
        rw [Bool.not_eq_true] at hk
        exact h ▸ ⟨rfl, hk⟩
  | forget node => exact absurd h (by simp only [Call.change?, reduceCtorEq, not_false_eq_true])
  | retain keep => exact absurd h (by simp only [Call.change?, reduceCtorEq, not_false_eq_true])
  | flush => exact absurd h (by simp only [Call.change?, reduceCtorEq, not_false_eq_true])
  | flushDue now => exact absurd h (by simp only [Call.change?, reduceCtorEq, not_false_eq_true])

end Runs

section Kinds

variable (h : Handle) (changes : List Change)

theorem kindsOf_append (ch : Change) : Change.kindsOf h (changes ++ [ch]) =
    Change.kindsOf h changes ++ if ch.node = h then [ch.kinds] else [] := by
  rw [Change.kindsOf, List.filter_append, List.map_append]
  by_cases hn : ch.node = h
  · simp only [hn, if_true, List.filter_cons, decide_true, List.filter_nil, List.map_cons,
      List.map_nil, Change.kindsOf]
  · simp only [hn, if_false, List.filter_cons, decide_false, Bool.false_eq_true, List.filter_nil,
      List.map_nil, Change.kindsOf]

/-- Dropping nodes drops their changes and no others. -/
theorem kindsOf_filter (keep : Handle → Bool) :
    Change.kindsOf h (changes.filter (keep ·.node)) =
      if keep h then Change.kindsOf h changes else [] := by
  rw [Change.kindsOf, Change.kindsOf, List.filter_filter]
  cases hk : keep h with
  | true =>
      rw [if_pos rfl]
      refine congrArg _ (List.filter_congr fun ch _ => ?_)
      by_cases hn : ch.node = h
      · rw [hn, hk, Bool.and_true]
      · simp only [hn, decide_false, Bool.false_and]
  | false =>
      rw [if_neg Bool.false_ne_true, List.map_eq_nil_iff, List.filter_eq_nil_iff]
      intro ch _ hboth
      rw [Bool.and_eq_true, decide_eq_true_eq] at hboth
      rw [hboth.1, hk] at hboth
      exact Bool.false_ne_true hboth.2

theorem kindsOf_ne_nil_iff : Change.kindsOf h changes ≠ [] ↔ h ∈ changes.map Change.node := by
  rw [Change.kindsOf, ne_eq, List.map_eq_nil_iff, List.filter_eq_nil_iff, List.mem_map]
  simp only [decide_eq_true_eq, not_forall, not_not, exists_prop]

end Kinds

/-- Waiting for the end of the window is releasing once no time is left of it. -/
theorem flushDue_eq (c : Coalescer) (now : Nat) :
    c.flushDue now = if c.timeLeft now = some 0 then c.flush else ([], c) := by
  unfold flushDue timeLeft
  cases c.windowStart with
  | none => simp only [Option.map_none, reduceCtorEq, if_false]
  | some start => simp only [Option.map_some, Option.some.injEq, Nat.sub_eq_zero_iff_le]

namespace Gathers

variable (c : Coalescer) (changes : List Change)

theorem ofDelay (delay : Nat) : (ofDelay delay).Gathers [] := fun _ => rfl

theorem congr (c' : Coalescer) (hg : c.Gathers changes) (hpending : c'.pending = c.pending) :
    c'.Gathers changes := by
  intro h
  rw [pendingFor, hpending]
  exact hg h

variable (hg : c.Gathers changes)

include hg

/-- Something is gathered exactly as long as some change waits. -/
theorem hasPending_iff : c.hasPending = true ↔ changes ≠ [] := by
  rw [hasPending, Bool.not_eq_true', Std.ExtTreeMap.isEmpty_eq_false_iff, not_iff_not]
  constructor
  · intro hempty
    rw [List.eq_nil_iff_forall_not_mem]
    intro ch hch
    have hnone := hg ch.node
    have hkinds := (kindsOf_ne_nil_iff ch.node changes).mpr (List.mem_map_of_mem hch)
    rw [pendingFor, hempty, Std.ExtTreeMap.getElem?_empty, Change.kindsFor, if_neg hkinds] at hnone
    exact absurd hnone (by simp only [reduceCtorEq, not_false_eq_true])
  · rintro rfl
    refine Std.ExtTreeMap.ext_getElem? fun h => ?_
    rw [Std.ExtTreeMap.getElem?_empty]
    exact hg h

/-- Nodes with a recorded change are added with its kinds. -/
theorem record (node : Handle) (kinds : Attributes) (now : Nat) (hk : kinds.isEmpty = false) :
    (c.record node kinds now).Gathers (changes ++ [⟨node, kinds, now⟩]) := by
  intro h
  have hold := hg h
  rw [pendingFor] at hold ⊢
  simp only [Coalescer.record, hk, Bool.false_eq_true, if_false]
  rw [HandleMap.get_insert, Change.kindsFor, kindsOf_append]
  by_cases hn : node = h
  · -- A node without waiting changes starts with no kinds.
    subst hn
    have hgot : c.pending.getD node Attributes.none =
        Attributes.unions (Change.kindsOf node changes) := by
      rw [Std.ExtTreeMap.getD_eq_getD_getElem?, hold, Change.kindsFor]
      by_cases hnil : Change.kindsOf node changes = []
      · rw [if_pos hnil, hnil]
        rfl
      · rw [if_neg hnil, Option.getD_some]
    have hne : Change.kindsOf node changes ++ [kinds] ≠ [] := List.concat_ne_nil _ _
    simp only [if_true, hne, if_false, hgot, Attributes.unions_append]
  · simp only [hn, if_false, List.append_nil]
    exact hold

/-- Dropped nodes go away. -/
theorem keep (c' : Coalescer) (test : Handle → Bool)
    (hc' : ∀ h, c'.pendingFor h = if test h then c.pendingFor h else none) :
    c'.Gathers (changes.filter (test ·.node)) := by
  intro h
  rw [hc', hg h, Change.kindsFor, Change.kindsFor, kindsOf_filter]
  cases test h with
  | true => rw [if_pos rfl, if_pos rfl]
  | false => rw [if_neg Bool.false_ne_true, if_neg Bool.false_ne_true, if_pos rfl]

/-- A release leaves nothing. -/
theorem flush : c.flush.2.Gathers [] := by
  unfold Coalescer.flush
  by_cases hempty : c.pending.isEmpty = true
  · rw [if_pos hempty]
    have hnone : changes = [] := by
      by_contra hne
      have hpending := (hg.hasPending_iff c changes).mpr hne
      rw [hasPending, hempty] at hpending
      exact Bool.false_ne_true hpending
    exact (hnone ▸ hg).congr c [] _ rfl
  · rw [if_neg hempty]
    exact fun h => Std.ExtTreeMap.getElem?_empty

/-- A call keeps the sets in step with what waits. -/
theorem run (call : Call) : (call.run c).2.Gathers
    (changes.filter (call.spares c ·.node) ++ call.change?.toList) := by
  have hall : changes.filter (fun _ => true) = changes := List.filter_true changes
  have hnone : changes.filter (fun _ => false) = [] := List.filter_false changes
  cases call with
  | record node kinds now =>
      simp only [Call.run, Call.spares, Call.change?, hall]
      by_cases hk : kinds.isEmpty = true
      · simp only [Coalescer.record, hk, if_true, Option.toList_none, List.append_nil]
        exact hg
      · rw [Bool.not_eq_true] at hk
        simp only [hk, Bool.false_eq_true, if_false, Option.toList_some]
        exact hg.record c changes node kinds now hk
  | forget node =>
      simp only [Call.run, Call.spares, Call.change?, Option.toList_none, List.append_nil]
      refine hg.keep c changes _ (fun h => node ≠ h) fun h => ?_
      have herase := HandleMap.get_erase c.pending node h
      have hpending : (c.forget node).pending = c.pending.erase node := by
        simp only [forget, closeIfIdle]
        split <;> rfl
      rw [pendingFor, hpending, herase]
      by_cases hn : node = h
      · simp only [hn, if_true, ne_eq, not_true_eq_false, decide_false, Bool.false_eq_true,
          if_false]
      · simp only [hn, if_false, ne_eq, not_false_eq_true, decide_true, if_true, pendingFor]
  | retain test =>
      simp only [Call.run, Call.spares, Call.change?, Option.toList_none, List.append_nil]
      refine hg.keep c changes _ test fun h => ?_
      have hpending : (c.retain test).pending = c.pending.filter fun h _ => test h := by
        simp only [retain, closeIfIdle]
        split <;> rfl
      rw [pendingFor, hpending, Std.ExtTreeMap.getElem?_filter', pendingFor]
      cases test h with
      | true => cases c.pending[h]? <;> rfl
      | false => cases c.pending[h]? <;> rfl
  | flush =>
      simp only [Call.run, Call.spares, Call.change?, Option.toList_none, List.append_nil, hnone]
      exact hg.flush c changes
  | flushDue now =>
      simp only [Call.run, Call.spares, Call.change?, Option.toList_none, List.append_nil]
      rw [flushDue_eq]
      by_cases hdue : c.timeLeft now = some 0
      · simp only [hdue, ne_eq, not_true_eq_false, decide_false, if_true, hnone]
        exact hg.flush c changes
      · simp only [hdue, ne_eq, not_false_eq_true, decide_true, if_false, hall]
        exact hg

/-- What is gathered is one batch of all that waits. -/
theorem toList_eq : c.pending.toList = Change.batch changes := by
  have hget : ∀ h, c.pending[h]? = Change.kindsFor h changes := hg
  have hkeys : c.pending.keys = Handle.ascending (changes.map Change.node) := by
    rcases Handle.ascending_spec (changes.map Change.node) with ⟨hasc, hmem⟩
    refine Handle.ascending_ext _ _ ?_ hasc fun h => ?_
    · exact Std.ExtTreeMap.ordered_keys.imp fun hab => (Handle.compare_eq_lt _ _).mp hab
    · rw [hmem, ← kindsOf_ne_nil_iff, Std.ExtTreeMap.mem_keys, Std.ExtTreeMap.mem_iff_contains,
        HandleMap.contains_iff, hget, Change.kindsFor]
      by_cases hnil : Change.kindsOf h changes = []
      · simp only [hnil, if_true, reduceCtorEq, exists_false, ne_eq, not_true_eq_false]
      · simp only [hnil, if_false, Option.some.injEq, exists_eq', ne_eq, not_false_eq_true]
  rw [Change.batch, ← hkeys, ← Std.ExtTreeMap.map_fst_toList_eq_keys, List.map_map]
  refine (List.map_id _).symm.trans (List.map_congr_left fun e he => ?_)
  have hval := Std.ExtTreeMap.mem_toList_iff_getElem?_eq_some.mp he
  rw [hget, Change.kindsFor] at hval
  by_cases hnil : Change.kindsOf e.1 changes = []
  · rw [if_pos hnil] at hval
    exact absurd hval (by simp only [reduceCtorEq, not_false_eq_true])
  · rw [if_neg hnil, Option.some.injEq] at hval
    exact Prod.ext rfl hval.symm

/-- A call that releases anything releases all that waits. -/
theorem released_eq (call : Call) :
    (call.run c).1 = if call.releases c then Change.batch changes else [] := by
  have hflush : c.flush.1 = Change.batch changes := by
    rw [← hg.toList_eq c changes, Coalescer.flush]
    by_cases hempty : c.pending.isEmpty = true
    · rw [if_pos hempty, ← Std.ExtTreeMap.isEmpty_toList, List.isEmpty_iff] at *
      exact hempty.symm
    · rw [if_neg hempty]
  cases call with
  | record node kinds now => rfl
  | forget node => rfl
  | retain keep => rfl
  | flush => exact hflush
  | flushDue now =>
      simp only [Call.run, Call.releases, flushDue_eq]
      by_cases hdue : c.timeLeft now = some 0
      · simp only [hdue, if_true, decide_true, hflush]
      · simp only [hdue, if_false, decide_false, Bool.false_eq_true]

/-- A window that has passed holds something. -/
theorem flushDue_ne_nil_iff (harmed : c.windowStart.isSome = c.hasPending) (now : Nat) :
    (c.flushDue now).1 ≠ [] ↔ c.timeLeft now = some 0 := by
  have hrun : (c.flushDue now).1 =
      if c.timeLeft now = some 0 then Change.batch changes else [] := by
    rw [show c.flushDue now = Call.run c (.flushDue now) from rfl, hg.released_eq]
    simp only [Call.releases, decide_eq_true_eq]
  rw [hrun]
  by_cases hdue : c.timeLeft now = some 0
  · refine iff_of_true ?_ hdue
    have hopen : c.windowStart.isSome = true := by
      rw [← Option.isSome_map, show c.windowStart.map _ = some 0 from hdue]
      rfl
    rw [harmed, hg.hasPending_iff c changes] at hopen
    rcases List.exists_mem_of_ne_nil changes hopen with ⟨ch, hch⟩
    rw [if_pos hdue, Change.batch, ne_eq, List.map_eq_nil_iff]
    refine List.ne_nil_of_mem (a := ch.node) ?_
    exact ((Handle.ascending_spec _).2 ch.node).mpr (List.mem_map_of_mem hch)
  · rw [if_neg hdue]
    exact iff_of_false (fun h => h rfl) hdue

end Gathers

section Window

variable (c : Coalescer) (harmed : c.windowStart.isSome = c.hasPending)

-- Without a change in the way the window closes once nothing is gathered.
theorem windowStart_closeIfIdle (d : Coalescer) :
    d.closeIfIdle.windowStart = if d.closeIfIdle.hasPending then d.windowStart else none := by
  unfold closeIfIdle hasPending
  cases hempty : d.pending.isEmpty with
  | true => simp only [if_true, hempty, Bool.not_true, Bool.false_eq_true, if_false]
  | false => simp only [Bool.false_eq_true, if_false, hempty, Bool.not_false, if_true]

include harmed

/-- A window stays open as long as something is gathered, and a change opens one
    if none is open. -/
theorem windowStart_run (call : Call) : (call.run c).2.windowStart =
    if (call.run c).2.hasPending then c.windowStart.or (call.change?.map Change.instant)
    else none := by
  have hsame : c.windowStart = if c.hasPending then c.windowStart else none := by
    rw [← harmed]
    cases c.windowStart <;> rfl
  have hflush : c.flush.2.windowStart = if c.flush.2.hasPending then c.windowStart else none := by
    unfold Coalescer.flush hasPending
    by_cases hempty : c.pending.isEmpty = true
    · simp only [hempty, if_true, Bool.not_true, Bool.false_eq_true, if_false]
    · simp only [hempty, if_false, Bool.false_eq_true, Std.ExtTreeMap.isEmpty_empty, Bool.not_true]
  cases call with
  | record node kinds now =>
      simp only [Call.run, Call.change?]
      by_cases hk : kinds.isEmpty = true
      · simp only [record, hk, if_true, Option.map_none, Option.or_none]
        exact hsame
      · simp only [record, hk, Bool.false_eq_true, if_false, hasPending,
          Std.ExtTreeMap.isEmpty_eq_false_iff.mpr Std.ExtTreeMap.insert_ne_empty, Bool.not_false,
          if_true, Option.map_some]
  | forget node =>
      simp only [Call.run, Call.change?, Option.map_none, Option.or_none]
      exact windowStart_closeIfIdle _
  | retain keep =>
      simp only [Call.run, Call.change?, Option.map_none, Option.or_none]
      exact windowStart_closeIfIdle _
  | flush =>
      simp only [Call.run, Call.change?, Option.map_none, Option.or_none]
      exact hflush
  | flushDue now =>
      simp only [Call.run, Call.change?, Option.map_none, Option.or_none, flushDue_eq]
      by_cases hdue : c.timeLeft now = some 0
      · simp only [hdue, if_true]
        exact hflush
      · simp only [hdue, if_false]
        exact hsame

end Window

section Clock

variable (c : Coalescer) (last : Nat)

/-- A clock that gets to the deadline shows it. -/
theorem deadlineUntil_of_le (h : ∀ d, c.deadline = some d → d ≤ last) :
    c.deadlineUntil last = .ok c.deadline := by
  unfold deadlineUntil
  unfold deadline at h ⊢
  cases hstart : c.windowStart with
  | none => rfl
  | some start =>
      rw [hstart] at h
      exact if_pos (h _ rfl)

/-- A clock fails to show a deadline that it does not get to, and no other. -/
theorem deadlineUntil_eq_error_iff : c.deadlineUntil last = .error .instantTooLate ↔
    ∃ d, c.deadline = some d ∧ last < d := by
  constructor
  · intro herror
    by_contra hnone
    have hle : ∀ d, c.deadline = some d → d ≤ last := fun d hd =>
      Nat.le_of_not_lt fun hlt => hnone ⟨d, hd, hlt⟩
    rw [c.deadlineUntil_of_le last hle] at herror
    cases herror
  · rintro ⟨d, hd, hlt⟩
    rcases Option.map_eq_some_iff.mp hd with ⟨start, hstart, rfl⟩
    unfold deadlineUntil
    rw [hstart]
    exact if_neg (Nat.not_le.mpr hlt)

end Clock

/-- After one more call a window is open if something is gathered. It was open
    before, or the call recorded a change while nothing was gathered. -/
theorem opened_append (delay : Nat) (calls : List Call) (call : Call) (t : Nat) :
    Opened delay (calls ++ [call]) t ↔
      ((ofDelay delay).after (calls ++ [call])).hasPending = true ∧
        (Opened delay calls t ∨ (((ofDelay delay).after calls).hasPending = false ∧
          call.change?.map Change.instant = some t)) := by
  constructor
  · rintro ⟨before, first, change, rest, heq, hchange, ht, hidle, hbusy⟩
    rcases List.eq_nil_or_concat' rest with rfl | ⟨rest, last, rfl⟩
    · -- The last call is the one that opened the window.
      rcases List.append_inj' heq rfl with ⟨rfl, hlast⟩
      rw [List.cons.injEq] at hlast
      rcases hlast with ⟨rfl, _⟩
      exact ⟨hbusy [] (List.prefix_refl []), Or.inr ⟨hidle, by rw [hchange, ← ht]; rfl⟩⟩
    · rw [← List.cons_append, ← List.append_assoc] at heq
      rcases List.append_inj' heq rfl with ⟨rfl, hlast⟩
      refine ⟨?_, Or.inl ⟨before, first, change, rest, rfl, hchange, ht, hidle, fun mid hmid => ?_⟩⟩
      · rw [heq, List.append_assoc]
        exact hbusy _ (List.prefix_refl _)
      · exact hbusy mid (hmid.trans (List.prefix_append rest [last]))
  · rintro ⟨hbusy, ⟨before, first, change, rest, rfl, hchange, ht, hidle, hall⟩ | ⟨hidle, ht⟩⟩
    · refine ⟨before, first, change, rest ++ [call], ?_, hchange, ht, hidle, fun mid hmid => ?_⟩
      · rw [List.append_assoc, List.cons_append]
      · rcases List.prefix_concat_iff.mp hmid with rfl | hmid
        · rw [← List.cons_append, ← List.append_assoc]
          exact hbusy
        · exact hall mid hmid
    · rcases Option.map_eq_some_iff.mp ht with ⟨change, hchange, ht⟩
      refine ⟨calls, call, change, [], rfl, hchange, ht, hidle, fun mid hmid => ?_⟩
      rw [List.prefix_nil.mp hmid]
      exact hbusy

section After

variable (delay : Nat) (calls : List Call)

theorem delay_run (c : Coalescer) (call : Call) : (call.run c).2.delay = c.delay := by
  have hflush : c.flush.2.delay = c.delay := by
    unfold Coalescer.flush
    split <;> rfl
  cases call with
  | record node kinds now =>
      simp only [Call.run, record]
      split <;> rfl
  | forget node =>
      simp only [Call.run, forget, closeIfIdle]
      split <;> rfl
  | retain keep =>
      simp only [Call.run, retain, closeIfIdle]
      split <;> rfl
  | flush => exact hflush
  | flushDue now =>
      simp only [Call.run, flushDue_eq]
      by_cases hdue : c.timeLeft now = some 0
      · rw [if_pos hdue, hflush]
      · rw [if_neg hdue]

theorem delay_after (c : Coalescer) : (c.after calls).delay = c.delay := by
  induction calls generalizing c with
  | nil => rfl
  | cons call rest ih => exact (ih (call.run c).2).trans (c.delay_run call)

theorem Gathers.after (c : Coalescer) (changes : List Change) (hg : c.Gathers changes) :
    (c.after calls).Gathers (waiting c changes calls) := by
  induction calls generalizing c changes with
  | nil => exact hg
  | cons call rest ih => exact ih (call.run c).2 _ (hg.run c changes call)

/-- A window is open exactly as long as something is gathered, and it began when
    the reference says. -/
theorem window_after :
    ((ofDelay delay).after calls).windowStart.isSome = ((ofDelay delay).after calls).hasPending ∧
      ∀ t, ((ofDelay delay).after calls).windowStart = some t ↔ Opened delay calls t := by
  induction calls using List.reverseRecOn with
  | nil =>
      refine ⟨rfl, fun t => iff_of_false ?_ ?_⟩
      · exact fun h => absurd h (by simp only [after, ofDelay, reduceCtorEq, not_false_eq_true])
      · rintro ⟨before, call, change, rest, heq, _⟩
        exact absurd heq.symm (by simp only [List.append_eq_nil_iff, reduceCtorEq, and_false,
          not_false_eq_true])
  | append_singleton calls call ih =>
      rcases ih with ⟨harmed, hopened⟩
      have hg := Gathers.after calls _ _ (Gathers.ofDelay delay)
      have hstart := windowStart_run _ harmed call
      have hg' := hg.run _ _ call
      have hmore := after_append (ofDelay delay) calls [call]
      refine ⟨?_, fun t => ?_⟩
      · rw [hmore]
        change (call.run _).2.windowStart.isSome = (call.run _).2.hasPending
        rw [hstart]
        by_cases hbusy : (call.run ((ofDelay delay).after calls)).2.hasPending = true
        · -- What waits now waited before or was recorded just now.
          rw [if_pos hbusy, hbusy, Option.isSome_or, harmed, Bool.or_eq_true]
          have hwaits := (hg'.hasPending_iff _ _).mp hbusy
          rw [ne_eq, List.append_eq_nil_iff, not_and_or] at hwaits
          rcases hwaits with hold | hnew
          · refine Or.inl ((hg.hasPending_iff _ _).mpr fun hnil => hold ?_)
            rw [hnil, List.filter_nil]
          · rw [Option.isSome_map]
            exact Or.inr (Option.isSome_iff_ne_none.mpr fun hnone => hnew (by rw [hnone]; rfl))
        · rw [if_neg hbusy, Bool.eq_false_of_not_eq_true hbusy]
          rfl
      · rw [opened_append, ← hopened t, hmore]
        change (call.run _).2.windowStart = some t ↔ (call.run _).2.hasPending = true ∧ _
        rw [hstart, ← harmed]
        by_cases hbusy : (call.run ((ofDelay delay).after calls)).2.hasPending = true
        · rw [if_pos hbusy]
          cases ((ofDelay delay).after calls).windowStart with
          | none => simp only [hbusy, Option.none_or, reduceCtorEq, Option.isSome_none, true_and,
              false_or]
          | some start => simp only [hbusy, Option.some_or, Option.isSome_some, Bool.true_eq_false,
              false_and, or_false, true_and]
        · simp only [hbusy, if_false, reduceCtorEq, false_and]

/-- When instants do not go back, all that waits was recorded after the window
    had opened, so the end of the window leaves nothing older than one delay. -/
theorem prompt_after (now : Nat)
    (hmono : (calls.filterMap Call.instant? ++ [now]).Pairwise (· ≤ ·)) :
    ∀ ch ∈ waiting ((ofDelay delay).after calls) (waiting (ofDelay delay) [] calls)
      [.flushDue now], now < ch.instant + delay := by
  rcases window_after delay calls with ⟨harmed, hopened⟩
  have hdelay : ((ofDelay delay).after calls).delay = delay := delay_after calls (ofDelay delay)
  have hg := Gathers.after calls _ _ (Gathers.ofDelay delay)
  intro ch hch
  simp only [waiting, Call.spares, Call.change?, Option.toList_none, List.append_nil,
    List.mem_filter, decide_eq_true_eq] at hch
  rcases hch with ⟨hch, hleft⟩
  have hbusy := (hg.hasPending_iff _ _).mpr (List.ne_nil_of_mem hch)
  rw [← harmed] at hbusy
  rcases Option.isSome_iff_exists.mp hbusy with ⟨start, hstart⟩
  rcases (hopened start).mp hstart with ⟨before, call, change, rest, rfl, hchange, rfl, hidle, -⟩
  -- Nothing waited before the call that opened the window.
  have hnil : waiting (ofDelay delay) [] before = [] := by
    by_contra hne
    rw [(Gathers.after before _ _ (Gathers.ofDelay delay)).hasPending_iff _ _ |>.mpr hne] at hidle
    exact absurd hidle (by simp only [reduceCtorEq, not_false_eq_true])
  have hsince : change.instant ≤ ch.instant := by
    rw [waiting_append, hnil] at hch
    rcases mem_waiting _ _ _ ch hch with hm | ⟨later, hlater, heq⟩
    · exact absurd hm List.not_mem_nil
    · rcases List.mem_cons.mp hlater with rfl | hlater
      · rw [hchange, Option.some.injEq] at heq
        exact heq ▸ Nat.le_refl _
      · rw [List.filterMap_append, List.filterMap_cons_some (change?_spec call change hchange).1,
          List.append_assoc, List.cons_append] at hmono
        refine List.rel_of_pairwise_cons (List.pairwise_append.mp hmono).2.1 ?_
        exact List.mem_append_left _
          (List.mem_filterMap.mpr ⟨later, hlater, (change?_spec later ch heq).1⟩)
  simp only [timeLeft, hstart, hdelay, Option.map_some, ne_eq, Option.some.injEq] at hleft
  omega

end After

/-- A coalescer with windows of `delay` agrees with the reference: after `calls`
    it is `c`, and `changes` wait. -/
structure Faithful (delay : Nat) (calls : List Call) (c : Coalescer) (changes : List Change) :
    Prop where
  /-- What is gathered for a node are the kinds of its waiting changes. -/
  gathered : ∀ h, c.pendingFor h = Change.kindsFor h changes
  /-- There is a deadline exactly as long as something is gathered. -/
  armed : c.deadline.isSome = c.hasPending
  /-- It is one delay after the first change since nothing was gathered. -/
  deadline_iff : ∀ d, c.deadline = some d ↔ ∃ t, Opened delay calls t ∧ d = t + delay
  /-- On a clock that ends it is the same as long as the clock gets there. -/
  within : ∀ last, (∀ t, Opened delay calls t → t + delay ≤ last) →
    c.deadlineUntil last = .ok c.deadline
  /-- If the clock ends earlier, the question for it is a fault. -/
  overrun_iff : ∀ last, c.deadlineUntil last = .error .instantTooLate ↔
    ∃ t, Opened delay calls t ∧ last < t + delay
  /-- No later change moves it. -/
  lasting : ∀ node kinds now d, c.deadline = some d → (c.record node kinds now).deadline = some d
  /-- What is released is one batch of all that waits. -/
  released : ∀ call : Call,
    (call.run c).1 = if call.releases c then Change.batch changes else []
  /-- Each node is in it once, in handle order. -/
  ascending : ∀ call : Call, Handle.Ascending ((call.run c).1.map Prod.fst)
  /-- The end of the window releases something exactly when no time is left. -/
  due : ∀ now, (c.flushDue now).1 ≠ [] ↔ c.timeLeft now = some 0
  /-- Before that nothing happens. -/
  idle : ∀ now, c.timeLeft now ≠ some 0 → c.flushDue now = ([], c)
  /-- When instants do not go back, no change waits longer than one delay. -/
  prompt : ∀ now, (calls.filterMap Call.instant? ++ [now]).Pairwise (· ≤ ·) →
    ∀ ch ∈ waiting c changes [.flushDue now], now < ch.instant + delay

/-- A coalescer agrees with the reference after any calls. -/
theorem faithful_after (delay : Nat) (calls : List Call) :
    Faithful delay calls ((ofDelay delay).after calls) (waiting (ofDelay delay) [] calls) := by
  have hg := Gathers.after calls _ _ (Gathers.ofDelay delay)
  have hdelay : ((ofDelay delay).after calls).delay = delay := delay_after calls (ofDelay delay)
  rcases window_after delay calls with ⟨harmed, hopened⟩
  have hdeadline : ∀ d, ((ofDelay delay).after calls).deadline = some d ↔
      ∃ t, Opened delay calls t ∧ d = t + delay := fun d => by
    simp only [deadline, hdelay, Option.map_eq_some_iff, hopened, @eq_comm _ d]
  refine ⟨hg, ?_, hdeadline, fun last hlast => deadlineUntil_of_le _ _ fun d hd => ?_,
    fun last => (deadlineUntil_eq_error_iff _ _).trans ?_, ?_, hg.released_eq _ _,
    fun call => ?_, fun now => ?_, ?_, ?_⟩
  · rw [deadline, Option.isSome_map, harmed]
  · rcases (hdeadline d).mp hd with ⟨t, ht, rfl⟩
    exact hlast t ht
  · simp only [hdeadline]
    constructor
    · rintro ⟨d, ⟨t, ht, rfl⟩, hlt⟩
      exact ⟨t, ht, hlt⟩
    · rintro ⟨t, ht, hlt⟩
      exact ⟨t + delay, ⟨t, ht, rfl⟩, hlt⟩
  · intro node kinds now d hd
    rcases Option.map_eq_some_iff.mp hd with ⟨start, hstart, rfl⟩
    rw [record]
    split
    · exact hd
    · simp only [deadline, hstart, Option.some_or, Option.map_some]
  · rw [hg.released_eq]
    split
    · rw [Change.batch, List.map_map]
      exact (List.map_id' _).symm ▸ (Handle.ascending_spec _).1
    · exact List.Pairwise.nil
  · exact hg.flushDue_ne_nil_iff _ _ harmed now
  · intro now hleft
    rw [flushDue_eq, if_neg hleft]
  · exact prompt_after delay calls

-- A later change does not move the deadline, and a node is released once.
example :
    let c := (ofDelay 500).after [.record ⟨2⟩ .label 0, .record ⟨1⟩ .size 100,
      .record ⟨2⟩ .visibility 400]
    c.deadline = some 500 ∧ (c.flushDue 499).1 = [] ∧
      (c.flushDue 500).1 = [(⟨1⟩, .size), (⟨2⟩, Attributes.label.union .visibility)] := by
  decide +kernel

end Coalescer

end TreeWatch
