import TreeWatch.Proofs.Endings
import TreeWatch.Proofs.Redundant

/-!
# What Is Counted

A tracker counts the notifications that changed its record and those that it
ignored. The counters are put forward where a notification comes to its end, and
what a notification does may lie behind it by then. Two ways of giving up come
late. A node that is about to enter first evicts what is tracked below it, and
that may take the place where it belongs. A node that moved is first taken out,
and nothing says that it gets in again: the node its parents lead to may be no
part of the tree. In both cases rows went away and were announced, and the
notification is not counted as applied.

Everywhere else the counters are right, so the notifications that they get wrong
can be told beforehand, from the record and the source.

## Main definitions

* `Step.Speaks`: Something was announced.
* `PointEdit.PutIn`, `PointEdit.Displaced`: A node that enters gets in, or evicts
  the place where it belongs.
* `PointEdit.Entrance`: How a notification that a node entered ends.
* `PointEdit.Judged`: A notification is counted as what it was, unless it is
  overlooked.
* `Task.Miscounted`: The notification gives up when rows are gone already.
* `Tracker.CountsRight`: The counters say what became of a notification.

## Theorems

* `Step.Strips.speaks`: Nothing goes away in silence.
* `PointEdit.EndsEntered.entrance`: How a node enters, and what is counted.
* `PointEdit.EndsEntered.judged`, `PointEdit.EndsLeft.counted`,
  `PointEdit.EndsReparented.judged`: The three notifications.
* `Tracker.countsRight_iff`: When the counters are right.
-/

namespace TreeWatch

open Forest (Under)

namespace Step

/-- Something was announced between two moments of a step. -/
def Speaks (s s' : Step) : Prop := ∃ trace, trace ≠ [] ∧ s'.trace = s.trace ++ trace

section Speaking

variable {s m s' : Step} {gone : Handle → Prop}

-- What was announced is not taken back.
theorem Speaks.append (h : Speaks s m) (more : List Notice) (hmore : s'.trace = m.trace ++ more) :
    Speaks s s' := by
  rcases h with ⟨trace, hne, htrace⟩
  exact ⟨trace ++ more, List.append_ne_nil_of_left_ne_nil hne more,
    by rw [hmore, htrace, List.append_assoc]⟩

theorem Speaks.after (before : List Notice) (hbefore : m.trace = s.trace ++ before)
    (h : Speaks m s') : Speaks s s' := by
  rcases h with ⟨trace, hne, htrace⟩
  exact ⟨before ++ trace, List.append_ne_nil_of_right_ne_nil before hne,
    by rw [htrace, hbefore, List.append_assoc]⟩

/-- Nothing goes away in silence: if no announcement was made, the story is that of
    a record that stays as it is. -/
theorem Strips.speaks (h : Strips s s' gone) (x : Handle) (hin : s.store.contains x = true)
    (hx : gone x) : Speaks s s' := by
  rcases h.told with ⟨trace, script, htrace, _, hstory, _⟩
  refine ⟨trace, fun hnil => ?_, htrace⟩
  subst hnil
  have hscript : script = [] := hstory.script_eq.symm
  subst hscript
  have hout := (h.cuts.not_contains_iff x).mpr (Or.inr hx)
  rw [hstory.idle.2, hin] at hout
  exact Bool.false_ne_true hout.symm

theorem speaks_insertRows (parent top : Handle) (row : Nat) (fill : Snapshot)
    (hok : s.insertRows parent row [top] fill = .ok s') : Speaks s s' := by
  rcases s.insertRows_announced parent row [top] fill (List.cons_ne_nil top []) s' hok with
    ⟨under, last, _, htrace, _⟩
  exact ⟨_, List.cons_ne_nil _ [_], htrace.trans (List.append_assoc _ _ _)⟩

theorem speaks_reset (isAlive : Handle → Bool) (s : Step) (root : Option Handle)
    (fill : Snapshot) : Speaks s (s.reset isAlive root fill) := by
  rcases s.reset_told isAlive root fill with ⟨gone, htrace, _⟩
  exact ⟨_, List.append_ne_nil_of_left_ne_nil (List.cons_ne_nil _ _) _, htrace⟩

end Speaking

end Step

/-- A node can be put in where the climb from it ends: below a tracked node that
    stays when the rest makes room, or at the root of an empty record. -/
def Climb.Open (source : Source) (s : Store) : Climb → Prop
  | .under parent top => source.isLive top = true ∧
      ¬ Step.Evicted s ((source.subtree top).descendants top) parent
  | .rootless top => s.root = none ∧ source.root = some top
  | .endless => False

/-- The node below which the climb ends goes away when the rest makes room. -/
def Climb.Blocked (source : Source) (s : Store) : Climb → Prop
  | .under parent top => source.isLive top = true ∧
      Step.Evicted s ((source.subtree top).descendants top) parent
  | _ => False

theorem Climb.Open.not_blocked (source : Source) (s : Store) (c : Climb) (h : c.Open source s) :
    ¬ c.Blocked source s := by
  cases c with
  | under parent top => exact fun hblocked => h.2 hblocked.2
  | rootless top => exact not_false
  | endless => exact not_false

namespace PointEdit

/-- A node that enters gets in. -/
structure PutIn (source : Source) (s : Store) (node : Handle) : Prop where
  untracked : s.contains node = false
  live : source.isLive node = true
  place : (climb s source node (maxChain - 1) node).Open source s

/-- A node that enters evicts the place where it belongs. -/
structure Displaced (source : Source) (s : Store) (node : Handle) : Prop where
  untracked : s.contains node = false
  live : source.isLive node = true
  place : (climb s source node (maxChain - 1) node).Blocked source s

/-- Whether a node gets in depends on the root and the parent links alone. -/
theorem putIn_congr (source : Source) (s t : Store) (node : Handle) (hroot : t.root = s.root)
    (hup : ∀ x, t.parent x = s.parent x) : PutIn source t node ↔ PutIn source s node := by
  have hc := s.contains_congr t hroot hup
  have hopen : ∀ c : Climb, c.Open source t ↔ c.Open source s := by
    intro c
    cases c with
    | under parent top => simp only [Climb.Open, Step.Evicted, funext hup]
    | rootless top => simp only [Climb.Open, hroot]
    | endless => exact Iff.rfl
  refine ⟨fun h => ⟨hc node ▸ h.untracked, h.live, ?_⟩,
    fun h => ⟨(hc node).trans h.untracked, h.live, ?_⟩⟩
  · rw [← hopen, ← climb_congr source s t node hc]
    exact h.place
  · rw [hopen, climb_congr source s t node hc]
    exact h.place

/-- How a notification that a node entered ends, with what was counted. -/
inductive Entrance (source : Source) (node : Handle) (tally : Tally) (s : Step) :
    Tally × Step → Prop where
  /-- The node got in. -/
  | putIn (s' : Step) (h : PutIn source s.store node) (hspeaks : s.Speaks s') :
    Entrance source node tally s (tally.apply, s')
  /-- Making room took away the place it belongs to, and nothing came. -/
  | displaced (s' : Step) (gone : Handle → Prop) (h : Displaced source s.store node)
    (hspeaks : s.Speaks s') (hcut : s.store.Cuts s'.store gone)
    (hlost : ∃ x, s.store.contains x = true ∧ gone x) : Entrance source node tally s (tally, s')
  /-- It was ignored. -/
  | ignored (hout : ¬ PutIn source s.store node) (hfits : ¬ Displaced source s.store node) :
    Entrance source node tally s (tally.ignore, s)
  /-- A full pass was asked for. -/
  | asked (hout : ¬ PutIn source s.store node) (hfits : ¬ Displaced source s.store node) :
    Entrance source node tally s (tally, s.requestResync)

section Entrances

variable {source : Source} {node : Handle} {tally : Tally} {s : Step} {out : Tally × Step}

/-- A node that gets in is counted. -/
theorem Entrance.applied (h : Entrance source node tally s out) (hin : PutIn source s.store node) :
    out.1 = tally.apply ∧ s.Speaks out.2 := by
  cases h with
  | putIn s' _ hspeaks => exact ⟨rfl, hspeaks⟩
  | displaced s' gone h => exact absurd h.place (hin.place.not_blocked source s.store _)
  | ignored hout => exact absurd hin hout
  | asked hout => exact absurd hin hout

/-- A node that does not get in is not counted as applied, and what is not tracked
    stays so. -/
theorem Entrance.shut_out (h : Entrance source node tally s out)
    (hout : ¬ PutIn source s.store node) :
    out.1.applied = tally.applied ∧ (∃ more, out.2.trace = s.trace ++ more) ∧
      ∀ x, s.store.contains x = false → out.2.store.contains x = false := by
  cases h with
  | putIn s' h => exact absurd h hout
  | displaced s' gone _ hspeaks hcut =>
      rcases hspeaks with ⟨more, _, hmore⟩
      exact ⟨rfl, ⟨more, hmore⟩, fun x hx => (hcut.not_contains_iff x).mpr (Or.inl hx)⟩
  | ignored => exact ⟨rfl, ⟨[], (List.append_nil _).symm⟩, fun _ hx => hx⟩
  | asked => exact ⟨rfl, ⟨[], (List.append_nil _).symm⟩, fun _ hx => hx⟩

end Entrances

/-- A notification was counted as what it was: applied, ignored, or left to a full
    pass. -/
inductive Counted (tally : Tally) (s : Step) : Tally × Step → Prop where
  | applied (s' : Step) (h : s.Speaks s') : Counted tally s (tally.apply, s')
  | ignored : Counted tally s (tally.ignore, s)
  | asked : Counted tally s (tally, s.requestResync)

/-- A notification announced something and a tracked node went away with it, and
    it was not counted as applied. -/
structure Overlooked (tally : Tally) (s : Step) (out : Tally × Step) : Prop where
  speaks : s.Speaks out.2
  lost : ∃ x, s.store.contains x = true ∧ out.2.store.contains x = false
  applied : out.1.applied = tally.applied

/-- A notification is overlooked if it is one of the `missed` ones, and counted as
    what it was if not. -/
structure Judged (missed : Prop) (tally : Tally) (s : Step) (out : Tally × Step) : Prop where
  overlooked : missed → Overlooked tally s out
  counted : ¬ missed → Counted tally s out

section Ends

variable {source : Source} {node : Handle} {tally : Tally} {s : Step} {out : Tally × Step}

/-- How a node enters, and what is counted. -/
theorem EndsEntered.entrance (h : EndsEntered source node tally s out) :
    Entrance source node tally s out := by
  -- The end of the climb decides.
  have hplace : ∀ c, climb s.store source node (maxChain - 1) node = c →
      (PutIn source s.store node → c.Open source s.store) ∧
        (Displaced source s.store node → c.Blocked source s.store) := by
    rintro c rfl
    exact ⟨PutIn.place, Displaced.place⟩
  cases h with
  | stale hstale =>
      have hno : s.store.contains node = false → source.isLive node = true → False := by
        intro hnode hlive
        rcases hstale with hin | hdead
        · exact Bool.false_ne_true (hnode.symm.trans hin)
        · exact Bool.false_ne_true (hdead.symm.trans hlive)
      exact .ignored (fun h => hno h.untracked h.live) fun h => hno h.untracked h.live
  | lost hnode hlive hclimb => exact .asked (hplace _ hclimb).1 (hplace _ hclimb).2
  | stray top hnode hlive hclimb hroot =>
      exact .ignored (fun h => hroot ((hplace _ hclimb).1 h)) (hplace _ hclimb).2
  | adopted top hnode hlive hclimb hroot =>
      exact .putIn _ ⟨hnode, hlive, hclimb ▸ hroot⟩ (s.speaks_reset source.isLive (some top) _)
  | barren parent top hnode hlive hclimb hdead =>
      refine .ignored (fun h => ?_) fun h => ?_
      · exact Bool.false_ne_true (hdead.symm.trans ((hplace _ hclimb).1 h).1)
      · exact Bool.false_ne_true (hdead.symm.trans ((hplace _ hclimb).2 h).1)
  | displaced parent top m hnode hlive hclimb hltop hstrips hparent =>
      rcases climb_under s.store source node _ node parent top hnode hclimb with ⟨hin, _, _, _⟩
      have hgone : Step.Evicted s.store ((source.subtree top).descendants top) parent := by
        refine ((hstrips.cuts.not_contains_iff parent).mp hparent).resolve_left fun hout => ?_
        exact Bool.false_ne_true (hout.symm.trans hin)
      exact .displaced m.requestResync _ ⟨hnode, hlive, hclimb ▸ ⟨hltop, hgone⟩⟩
        (hstrips.speaks parent hin hgone) hstrips.cuts ⟨parent, hin, hgone⟩
  | planted parent top m s' hnode hlive hclimb hltop hstrips hparent hins =>
      have hstays := ((hstrips.cuts.contains_iff parent).mp hparent).2
      rcases hstrips.takes with ⟨before, hbefore, _⟩
      exact .putIn s' ⟨hnode, hlive, hclimb ▸ ⟨hltop, hstays⟩⟩
        ((m.speaks_insertRows parent top _ _ hins).after before hbefore)

/-- A node that enters is overlooked if it evicts the place where it belongs. -/
theorem EndsEntered.judged (h : EndsEntered source node tally s out) :
    Judged (Displaced source s.store node) tally s out := by
  cases h.entrance with
  | putIn s' hin hspeaks =>
      exact ⟨fun hmissed => absurd hmissed.place (hin.place.not_blocked source s.store _),
        fun _ => .applied s' hspeaks⟩
  | displaced s' gone hmissed hspeaks hcut hlost =>
      rcases hlost with ⟨x, hx, hgone⟩
      exact ⟨fun _ => ⟨hspeaks, ⟨x, hx, (hcut.not_contains_iff x).mpr (Or.inr hgone)⟩, rfl⟩,
        fun hright => absurd hmissed hright⟩
  | ignored _ hfits => exact ⟨fun hmissed => absurd hmissed hfits, fun _ => .ignored⟩
  | asked _ hfits => exact ⟨fun hmissed => absurd hmissed hfits, fun _ => .asked⟩

/-- A node that leaves is counted as what it was. -/
theorem EndsLeft.counted (h : EndsLeft source node tally s out) : Counted tally s out := by
  cases h with
  | untracked => exact .ignored
  | root => exact .applied _ (s.speaks_reset source.isLive none Snapshot.empty)
  | cut m hnode hstrips => exact .applied m (hstrips.speaks node hnode (Under.refl node))

/-- A tracked node that moves is taken out. If it does not get in again, it is
    overlooked. -/
theorem judged_moved (hs : s.store.Sound) (m : Step) (relocated : Nat)
    (hnode : s.store.contains node = true) (hroot : s.store.root ≠ some node)
    (hstrips : s.Strips m (Under s.store.parent · node))
    (h : EndsEntered source node tally m out) :
    Judged (¬ PutIn source (s.store.remove node).2 node) tally s
      (out.1, { out.2 with report := { out.2.report with relocated := relocated } }) := by
  have hspeaks := hstrips.speaks node hnode (Under.refl node)
  have hgone := (hstrips.cuts.not_contains_iff node).mpr (Or.inr (Under.refl node))
  -- The removal of rows leaves the links of a removal from the record.
  have hremove := hs.cuts_remove s.store node hroot
  have hsame : PutIn source m.store node ↔ PutIn source (s.store.remove node).2 node :=
    putIn_congr source _ _ node (hstrips.cuts.root.trans hremove.root.symm)
      (hstrips.cuts.parent_eq hremove)
  refine ⟨fun hshut => ?_, fun hin => ?_⟩
  · rcases h.entrance.shut_out (mt hsame.mp hshut) with ⟨happlied, ⟨more, hmore⟩, hstay⟩
    exact ⟨hspeaks.append more hmore, ⟨node, hnode, hstay node hgone⟩, happlied⟩
  · rcases h.entrance.applied (hsame.mpr (not_not.mp hin)) with ⟨happlied, hmore⟩
    rcases hspeaks with ⟨before, _, hbefore⟩
    rw [happlied]
    exact .applied _ (hmore.after before hbefore)

end Ends

end PointEdit

/-- The notification gives up when rows are gone already: the node that enters
    evicts the place where it belongs, or the one that moved is taken out and does
    not get in again. -/
def Task.Miscounted (source : Source) (s : Store) : Task → Prop
  | .entered node => PointEdit.Displaced source s node
  | .reparented node =>
    if s.contains node then
      source.isLive node = true ∧ source.parent node ≠ s.parent node ∧ s.root ≠ some node ∧
        ¬ PointEdit.PutIn source (s.remove node).2 node
    else PointEdit.Displaced source s node
  | _ => False

/-- A node that moves is counted as what it was, unless it gives up late. -/
theorem PointEdit.EndsReparented.judged (source : Source) (node : Handle) (tally : Tally) (s : Step)
    (hs : s.store.Sound) (out : Tally × Step) (h : EndsReparented source node tally s out) :
    Judged ((Task.reparented node).Miscounted source s.store) tally s out := by
  simp only [Task.Miscounted]
  cases h with
  | entered _ hnode h =>
      rw [hnode, if_neg Bool.false_ne_true]
      exact h.judged
  | left _ hnode hdead h =>
      rw [if_pos hnode]
      exact ⟨fun hmissed => absurd (hdead.symm.trans hmissed.1) Bool.false_ne_true,
        fun _ => h.counted⟩
  | unmoved hnode hsame =>
      rw [if_pos hnode]
      exact ⟨fun hmissed => absurd hsame hmissed.2.1, fun _ => .ignored⟩
  | root hnode hroot =>
      rw [if_pos hnode]
      exact ⟨fun hmissed => absurd hroot hmissed.2.2.1, fun _ => .asked⟩
  | moved m done relocated hnode hlive hmoved hroot hstrips h =>
      rw [if_pos hnode]
      have hjudged := judged_moved hs m relocated hnode hroot hstrips h
      exact ⟨fun hmissed => hjudged.overlooked hmissed.2.2.2,
        fun hright => hjudged.counted fun hshut => hright ⟨hlive, hmoved, hroot, hshut⟩⟩

namespace Tracker

/-- The counters say what became of a notification. It was applied exactly if
    something was announced, and ignored exactly if nothing was announced, the
    record is the same and no full pass was asked for. -/
structure CountsRight (t : Tracker) (o : Outcome Report) : Prop where
  applied : o.tracker.tally.applied = t.tally.applied + if o.trace = [] then 0 else 1
  ignored : o.tracker.tally.ignored = t.tally.ignored +
    if o.trace = [] ∧ o.tracker.store = t.store ∧ o.value.resyncRequested = false then 1 else 0

/-- A notification was announced and a tracked node went away with it, and it was
    not counted as applied. -/
structure Overlooks (t : Tracker) (o : Outcome Report) : Prop where
  announced : o.trace ≠ []
  lost : ∃ x, t.store.contains x = true ∧ o.tracker.store.contains x = false
  applied : o.tracker.tally.applied = t.tally.applied

theorem Overlooks.not_countsRight (t : Tracker) (o : Outcome Report) (h : t.Overlooks o) :
    ¬ t.CountsRight o := by
  intro hright
  have happlied := hright.applied
  rw [if_neg h.announced, h.applied] at happlied
  omega

/-- The counters of a tracker are those of the edit. -/
theorem judged_notify (t : Tracker) (node : Handle)
    (edit : Tally → Step → Except Fault (Tally × Step)) (missed : Prop) (o : Outcome Report)
    (ho : t.notify node edit = .ok o)
    (hjudged : ∀ out, edit t.tally { store := t.store } = .ok out →
      PointEdit.Judged missed t.tally { store := t.store } out) :
    (t.CountsRight o ↔ ¬ missed) ∧ (missed → t.Overlooks o) := by
  rcases t.notify_cases node edit o ho with ⟨tally, s, pending, j, hok, hout⟩
  rcases hjudged _ hok with ⟨hmissed, hcounted⟩
  -- The step starts without a trace.
  have hspoken : Step.Speaks { store := t.store } s → s.trace ≠ [] := by
    rintro ⟨trace, hne, htrace⟩
    rw [htrace]
    exact List.append_ne_nil_of_right_ne_nil [] hne
  have hoverlooks : missed → t.Overlooks o := by
    intro h
    rw [hout]
    exact ⟨hspoken (hmissed h).speaks, (hmissed h).lost, (hmissed h).applied⟩
  refine ⟨⟨fun hright h => (hoverlooks h).not_countsRight t o hright, fun h => ?_⟩, hoverlooks⟩
  rw [hout]
  cases hcounted h with
  | applied _ hspeaks =>
      have hne := hspoken hspeaks
      refine ⟨?_, ?_⟩
      · rw [if_neg hne]
        rfl
      · rw [if_neg fun hidle => hne hidle.1]
        rfl
  | ignored =>
      refine ⟨rfl, ?_⟩
      rw [if_pos ⟨rfl, rfl, rfl⟩]
      rfl
  | asked =>
      refine ⟨rfl, ?_⟩
      rw [if_neg fun hidle => Bool.false_ne_true hidle.2.2.symm]
      rfl

/-- A tracker with a sound record counts a notification right unless it gives up
    when rows are gone already. If it does, something was announced and a tracked
    node went away, and the notification is not counted as applied. -/
theorem countsRight_iff (source : Source) (t : Tracker) (ht : t.store.check = none) (task : Task)
    (htask : task.isStructural = true) (now : Nat) (o : Outcome Report)
    (ho : t.handle source task now = .ok o) :
    (t.CountsRight o ↔ ¬ task.Miscounted source t.store) ∧
      (task.Miscounted source t.store → t.Overlooks o) := by
  have hsound := t.store.check_eq_none_iff_sound.mp ht
  cases task with
  | cycleCompleted => exact absurd htask Bool.false_ne_true
  | resync => exact absurd htask Bool.false_ne_true
  | attributes node kinds => exact absurd htask Bool.false_ne_true
  | entered node =>
      exact t.judged_notify node _ _ o ho fun out hok =>
        (PointEdit.ends_entered source node t.tally _ hsound out hok).judged
  | left node =>
      exact t.judged_notify node _ False o ho fun out hok =>
        ⟨False.elim, fun _ => (PointEdit.ends_left source node t.tally _ hsound out hok).counted⟩
  | reparented node =>
      exact t.judged_notify node _ _ o ho fun out hok =>
        (PointEdit.ends_reparented source node t.tally _ hsound out hok).judged source node
          t.tally _ hsound out

/-- The last node of a path was put in front of the second one, and a new one
    between them. -/
def twisted : Source where
  root := some ⟨1⟩
  children h := if h = ⟨1⟩ then [⟨3⟩] else if h = ⟨3⟩ then [⟨9⟩] else
    if h = ⟨9⟩ then [⟨2⟩] else []
  parent h := if h = ⟨3⟩ then some ⟨1⟩ else if h = ⟨9⟩ then some ⟨3⟩ else
    if h = ⟨2⟩ then some ⟨9⟩ else none
  isLive h := h = ⟨1⟩ ∨ h = ⟨2⟩ ∨ h = ⟨3⟩ ∨ h = ⟨9⟩
  describe _ := none

/-- A tracker that knows the path as it was. -/
def rowTracker : Tracker := { Tracker.ofSettings {} {} with store := Pass.threeInARow }

-- The new node takes the second one away, and with it the last one, where it belongs.
theorem countsRight_iff_of_twisted :
    rowTracker.store.check = none ∧ (Task.entered ⟨9⟩).isStructural = true ∧
      ∃ o, rowTracker.handle twisted (.entered ⟨9⟩) 0 = .ok o ∧
        ¬ rowTracker.CountsRight o ∧ rowTracker.Overlooks o := by
  have hcheck : rowTracker.store.check = none := by decide +kernel
  have hclimb : PointEdit.climb rowTracker.store twisted ⟨9⟩ (PointEdit.maxChain - 1) ⟨9⟩ =
      .under ⟨3⟩ ⟨9⟩ := by
    decide +kernel
  have hevicted : Step.Evicted rowTracker.store ((twisted.subtree ⟨9⟩).descendants ⟨9⟩) ⟨3⟩ :=
    ⟨⟨2⟩, by decide +kernel, by decide +kernel, Under.of_up (by decide +kernel)⟩
  have hmissed : (Task.entered ⟨9⟩).Miscounted twisted rowTracker.store :=
    ⟨by decide +kernel, by decide +kernel, hclimb ▸ ⟨by decide +kernel, hevicted⟩⟩
  have hruns : (rowTracker.handle twisted (.entered ⟨9⟩) 0).toOption.isSome = true := by
    decide +kernel
  cases ho : rowTracker.handle twisted (.entered ⟨9⟩) 0 with
  | error f =>
      rw [ho] at hruns
      exact absurd hruns Bool.false_ne_true
  | ok o =>
      rcases countsRight_iff twisted rowTracker hcheck (.entered ⟨9⟩) rfl 0 o ho with ⟨hiff, hover⟩
      exact ⟨hcheck, rfl, o, rfl, fun hright => hiff.mp hright hmissed, hover hmissed⟩

/-- A live node that lost its parent, next to a root. -/
def adrift : Source where
  root := some ⟨1⟩
  children _ := []
  parent _ := none
  isLive h := h = ⟨1⟩ ∨ h = ⟨2⟩
  describe _ := none

-- The node is taken out of the record, and the notification counts as ignored.
theorem not_countsRight_adrift :
    ¬ ∀ (source : Source) (t : Tracker) (task : Task) (now : Nat) (o : Outcome Report),
      t.store.check = none → task.isStructural = true → t.handle source task now = .ok o →
      t.CountsRight o := by
  intro hall
  have hcounts : (pairTracker.handle adrift (.reparented ⟨2⟩) 0).toOption.map
      (fun o => (o.trace.isEmpty, o.tracker.tally)) = some (false, ⟨0, 1⟩) := by
    decide +kernel
  cases ho : pairTracker.handle adrift (.reparented ⟨2⟩) 0 with
  | error f =>
      rw [ho] at hcounts
      exact absurd hcounts (Option.some_ne_none _).symm
  | ok o =>
      rw [ho] at hcounts
      have hright := hall adrift pairTracker (.reparented ⟨2⟩) 0 o (by decide +kernel) rfl ho
      rcases Prod.mk.inj (Option.some.inj hcounts) with ⟨hloud, htally⟩
      have hne : o.trace ≠ [] := by
        intro hnil
        rw [hnil] at hloud
        exact Bool.false_ne_true hloud.symm
      have happlied := hright.applied
      rw [htally, if_neg hne] at happlied
      exact absurd happlied (by decide)

end Tracker

end TreeWatch
