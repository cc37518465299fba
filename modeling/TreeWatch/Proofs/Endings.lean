import TreeWatch.Proofs.Notifications
import TreeWatch.Proofs.Removals

/-!
# How Notifications End

A notification that is handled without a fault has come to one of a few ends, and
this is the list of them, with the counters and the whole step as they are then.
Nothing is assumed about the source. What the relations of `Notifications` say
about the record is said there for notifications that do not tangle it; here a
tangle may happen, and an insertion is only known to have succeeded.

The lists are read off the text of the handlers once. Whatever is to be proved
about every notification, its report or its counters, goes through them.

## Main definitions

* `PointEdit.EndsEntered`, `PointEdit.EndsLeft`, `PointEdit.EndsReparented`: The
  ends of the three notifications.

## Theorems

* `PointEdit.ends_entered`, `PointEdit.ends_left`, `PointEdit.ends_reparented`:
  There are no others.
-/

namespace TreeWatch

open Forest (Under)

namespace PointEdit

section Ends

variable (source : Source) (node : Handle) (tally : Tally) (s : Step)

/-- The ends of a notification that a node entered. -/
inductive EndsEntered : Tally × Step → Prop where
  /-- The node is tracked already, or dead by now. -/
  | stale (h : s.store.contains node = true ∨ source.isLive node = false) :
    EndsEntered (tally.ignore, s)
  /-- The climb from it has no end. -/
  | lost (hnode : s.store.contains node = false) (hlive : source.isLive node = true)
    (hclimb : climb s.store source node (maxChain - 1) node = .endless) :
    EndsEntered (tally, s.requestResync)
  /-- It leads to a node without a parent that does not become the root. -/
  | stray (top : Handle) (hnode : s.store.contains node = false)
    (hlive : source.isLive node = true)
    (hclimb : climb s.store source node (maxChain - 1) node = .rootless top)
    (hroot : ¬ (s.store.root = none ∧ source.root = some top)) : EndsEntered (tally.ignore, s)
  /-- It leads to the root of the source, and nothing was tracked. -/
  | adopted (top : Handle) (hnode : s.store.contains node = false)
    (hlive : source.isLive node = true)
    (hclimb : climb s.store source node (maxChain - 1) node = .rootless top)
    (hroot : s.store.root = none ∧ source.root = some top) :
    EndsEntered (tally.apply, s.reset source.isLive (some top) (source.subtree top))
  /-- The topmost untracked ancestor is dead. -/
  | barren (parent top : Handle) (hnode : s.store.contains node = false)
    (hlive : source.isLive node = true)
    (hclimb : climb s.store source node (maxChain - 1) node = .under parent top)
    (hdead : source.isLive top = false) : EndsEntered (tally.ignore, s)
  /-- Making room took away the place it belongs to. -/
  | displaced (parent top : Handle) (m : Step) (hnode : s.store.contains node = false)
    (hlive : source.isLive node = true)
    (hclimb : climb s.store source node (maxChain - 1) node = .under parent top)
    (hltop : source.isLive top = true)
    (hstrips : s.Strips m (Step.Evicted s.store ((source.subtree top).descendants top)))
    (hparent : m.store.contains parent = false) : EndsEntered (tally, m.requestResync)
  /-- Its topmost untracked ancestor was put where it belongs. -/
  | planted (parent top : Handle) (m s' : Step) (hnode : s.store.contains node = false)
    (hlive : source.isLive node = true)
    (hclimb : climb s.store source node (maxChain - 1) node = .under parent top)
    (hltop : source.isLive top = true)
    (hstrips : s.Strips m (Step.Evicted s.store ((source.subtree top).descendants top)))
    (hparent : m.store.contains parent = true)
    (hins : m.insertRows parent (m.store.insertionRow parent top) [top] (source.subtree top) =
      .ok s') : EndsEntered (tally.apply, s')

/-- The ends of a notification that a node left. -/
inductive EndsLeft : Tally × Step → Prop where
  | untracked (h : s.store.contains node = false) : EndsLeft (tally.ignore, s)
  | root (h : s.store.root = some node) :
    EndsLeft (tally.apply,
      (s.reset source.isLive none Snapshot.empty).recover (.rootReplaced (some node) none))
  | cut (m : Step) (hnode : s.store.contains node = true)
    (hstrips : s.Strips m (Under s.store.parent · node)) : EndsLeft (tally.apply, m)

/-- The ends of a notification that a node moved. -/
inductive EndsReparented : Tally × Step → Prop where
  | entered (out : Tally × Step) (hnode : s.store.contains node = false)
    (h : EndsEntered source node tally s out) : EndsReparented out
  | left (out : Tally × Step) (hnode : s.store.contains node = true)
    (hdead : source.isLive node = false) (h : EndsLeft source node tally s out) :
    EndsReparented out
  | unmoved (hnode : s.store.contains node = true)
    (h : source.parent node = s.store.parent node) : EndsReparented (tally.ignore, s)
  | root (hnode : s.store.contains node = true) (h : s.store.root = some node) :
    EndsReparented (tally, s.requestResync)
  /-- It was taken out, and what came after that is the end of an entrance.
      Whether it counts as a relocation changes the report alone. -/
  | moved (m : Step) (out : Tally × Step) (relocated : Nat)
    (hnode : s.store.contains node = true) (hlive : source.isLive node = true)
    (hmoved : source.parent node ≠ s.store.parent node) (hroot : s.store.root ≠ some node)
    (hstrips : s.Strips m (Under s.store.parent · node))
    (h : EndsEntered source node tally m out) :
    EndsReparented (out.1, { out.2 with report := { out.2.report with relocated := relocated } })

variable (hs : s.store.Sound) (out : Tally × Step)

include hs

theorem ends_entered (hok : entered source node tally s = .ok out) :
    EndsEntered source node tally s out := by
  unfold entered at hok
  by_cases hstale : s.store.contains node = true ∨ source.isLive node = false
  · simp only [Bool.or_eq_true, Bool.not_eq_true', hstale, if_true, Except.ok.injEq] at hok
    exact hok ▸ .stale hstale
  · simp only [Bool.or_eq_true, Bool.not_eq_true', hstale, if_false] at hok
    rw [not_or, Bool.not_eq_true, Bool.not_eq_false] at hstale
    rcases hstale with ⟨hnode, hlive⟩
    cases hclimb : climb s.store source node (maxChain - 1) node with
    | endless =>
        simp only [hclimb, Except.ok.injEq] at hok
        exact hok ▸ .lost hnode hlive hclimb
    | rootless top =>
        simp only [hclimb, Except.ok.injEq] at hok
        subst hok
        unfold adoptRoot
        by_cases hadopt : (s.store.isEmpty && source.root = some top) = true
        · rw [if_pos hadopt]
          exact .adopted top hnode hlive hclimb ((adopts_iff source s top).mp hadopt)
        · rw [if_neg hadopt]
          exact .stray top hnode hlive hclimb (mt (adopts_iff source s top).mpr hadopt)
    | under parent top =>
        simp only [hclimb, source.isEmpty_subtree] at hok
        cases hltop : source.isLive top with
        | false =>
            simp only [hltop, Bool.not_false, if_true, Except.ok.injEq] at hok
            exact hok ▸ .barren parent top hnode hlive hclimb hltop
        | true =>
            rcases s.strips_evictTracked source.isLive hs [top] (source.subtree top) with
              ⟨flag, m, hrun, hstrips⟩
            rw [List.flatMap_singleton] at hstrips
            simp only [hltop, Bool.not_true, Bool.false_eq_true, if_false, hrun, bind,
              Except.bind] at hok
            cases hparent : m.store.contains parent with
            | false =>
                simp only [hparent, Bool.false_eq_true, if_false, pure, Except.pure,
                  Except.ok.injEq] at hok
                exact hok ▸ .displaced parent top m hnode hlive hclimb hltop hstrips hparent
            | true =>
                cases hins : m.insertRows parent (m.store.insertionRow parent top) [top]
                    (source.subtree top) with
                | error f => simp only [hparent, if_true, hins, reduceCtorEq] at hok
                | ok s' =>
                    simp only [hparent, if_true, hins, pure, Except.pure, Except.ok.injEq] at hok
                    exact hok ▸
                      .planted parent top m s' hnode hlive hclimb hltop hstrips hparent hins

theorem ends_left (hok : left source node tally s = .ok out) :
    EndsLeft source node tally s out := by
  unfold left at hok
  cases hnode : s.store.contains node with
  | false =>
      simp only [hnode, Bool.not_false, if_true, Except.ok.injEq] at hok
      exact hok ▸ .untracked hnode
  | true =>
      by_cases hroot : s.store.root = some node
      · simp only [hnode, Bool.not_true, Bool.false_eq_true, if_false, hroot, if_true,
          Except.ok.injEq] at hok
        exact hok ▸ .root hroot
      · -- Any other tracked node has a parent.
        rcases ((s.store.contains_iff node).mp hnode).resolve_left hroot with ⟨p, hp⟩
        rcases s.strips_removeNode source.isLive hs node p hp with ⟨m, hrun, hstrips⟩
        simp only [hnode, Bool.not_true, Bool.false_eq_true, if_false, hroot, hrun, bind,
          Except.bind, pure, Except.pure, Except.ok.injEq] at hok
        exact hok ▸ .cut m hnode hstrips

theorem ends_reparented (hok : reparented source node tally s = .ok out) :
    EndsReparented source node tally s out := by
  unfold reparented at hok
  cases hnode : s.store.contains node with
  | false =>
      simp only [hnode, Bool.not_false, if_true] at hok
      exact .entered out hnode (ends_entered source node tally s hs out hok)
  | true =>
      cases hlive : source.isLive node with
      | false =>
          simp only [hnode, hlive, Bool.not_true, Bool.false_eq_true, if_false, Bool.not_false,
            if_true] at hok
          exact .left out hnode hlive (ends_left source node tally s hs out hok)
      | true =>
          simp only [hnode, hlive, Bool.not_true, Bool.false_eq_true, if_false] at hok
          by_cases hsame : source.parent node = s.store.parent node
          · rw [if_pos hsame, Except.ok.injEq] at hok
            exact hok ▸ .unmoved hnode hsame
          · rw [if_neg hsame] at hok
            by_cases hroot : s.store.root = some node
            · rw [if_pos hroot, Except.ok.injEq] at hok
              exact hok ▸ .root hnode hroot
            · rw [if_neg hroot] at hok
              rcases ((s.store.contains_iff node).mp hnode).resolve_left hroot with ⟨p, hp⟩
              rcases s.strips_removeNode source.isLive hs node p hp with ⟨m, hrun, hstrips⟩
              simp only [hrun, bind, Except.bind] at hok
              cases hentered : entered source node tally m with
              | error f => simp only [hentered, reduceCtorEq] at hok
              | ok done =>
                  have hends := ends_entered source node tally m hstrips.edits.sound done hentered
                  have hmoved := fun n =>
                    EndsReparented.moved m done n hnode hlive hsame hroot hstrips hends
                  simp only [hentered] at hok
                  by_cases hin : done.2.store.contains node = true
                  · simp only [if_pos hin, pure, Except.pure, Except.ok.injEq] at hok
                    exact hok ▸ hmoved (done.2.report.relocated + 1)
                  · simp only [if_neg hin, pure, Except.pure, Except.ok.injEq] at hok
                    exact hok ▸ hmoved done.2.report.relocated

end Ends

end PointEdit

end TreeWatch
