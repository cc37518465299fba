import TreeWatch.Proofs.Laws
import TreeWatch.Proofs.Shedding
import TreeWatch.Proofs.Upkeep
import TreeWatch.Step

/-!
# Announced Deletions

When nodes go away, the deletion of those that are dead is announced. A trace
that leads from one record to another `Mourns` if the deletion of each node
that went away and is dead is announced in it once, and no other deletion is.
Nodes that are new in the second record have to be alive, so a node that went
away dead does not come back within a stretch of a step, and stretches that
mourn can be put one after the other.

The changes of a record mourn wherever they end, so mourning is a law of steps.
That the record is a tree in between is proved elsewhere and not needed here,
apart from one place: when the whole record goes away at once, its nodes are
listed by a walk from the root, and the walk has to find them.

## Main definitions

* `deletions`: How often the deletion of a node is announced.
* `Mourns`: Exactly the deletions of dead nodes that went away are announced.
* `Step.Mourning`: A computation mourns wherever it ends.

## Theorems

* `Mourns.append`: Traces one after the other.
* `Step.mourning_removeRows`, `Step.mourning_insertRows`,
  `Step.mourning_relocate`, `Step.mourns_reset`: The changes of a record.
* `Step.law_mourns`: Mourning is a law.
-/

namespace TreeWatch

/-- How often the deletion of a node is announced. -/
def deletions (h : Handle) (trace : List Notice) : Nat :=
  trace.countP fun n => n.event = .nodeDeleted h

theorem deletions_append (h : Handle) (before after : List Notice) :
    deletions h (before ++ after) = deletions h before + deletions h after :=
  List.countP_append

-- Announcements of anything else.
theorem deletions_eq_zero (h : Handle) (trace : List Notice)
    (hquiet : ∀ n ∈ trace, n.event ≠ .nodeDeleted h) : deletions h trace = 0 := by
  rw [deletions, List.countP_eq_zero]
  exact fun n hn => by simpa only [decide_eq_true_eq] using hquiet n hn

/-- Of the nodes that went away, the deletion of each dead one is announced
    once, and no other deletion is announced. Nodes that are new are alive. -/
structure Mourns (isAlive : Handle → Bool) (s : Store) (trace : List Notice) (t : Store) :
    Prop where
  tidy : t.Tidy
  new : ∀ h, t.contains h = true → s.contains h = true ∨ isAlive h = true
  once : ∀ h, deletions h trace =
    if isAlive h = false ∧ s.contains h = true ∧ t.contains h = false then 1 else 0

namespace Mourns

variable (isAlive : Handle → Bool) (s t u : Store) (trace before after : List Notice)

-- A dead node that is not there does not come back.
theorem stays_away (h : Mourns isAlive s trace t) (x : Handle) (hdead : isAlive x = false)
    (hs : s.contains x = false) : t.contains x = false := by
  rw [← Bool.not_eq_true]
  intro ht
  rcases h.new x ht with hx | hx
  · exact Bool.false_ne_true (hs.symm.trans hx)
  · exact Bool.false_ne_true (hdead.symm.trans hx)

theorem append (h : Mourns isAlive s before t) (h' : Mourns isAlive t after u) :
    Mourns isAlive s (before ++ after) u := by
  refine ⟨h'.tidy, fun x hx => ?_, fun x => ?_⟩
  · rcases h'.new x hx with hx | hx
    · exact h.new x hx
    · exact Or.inr hx
  · rw [deletions_append, h.once, h'.once]
    cases halive : isAlive x with
    | true => simp only [Bool.true_eq_false, false_and, if_false, Nat.add_zero]
    | false =>
        have hgone := h.stays_away isAlive s t before x halive
        have hgone' := h'.stays_away isAlive t u after x halive
        cases hs : s.contains x with
        | false => simp only [hgone hs, Bool.false_eq_true, false_and, and_false, if_false]
        | true =>
            cases ht : t.contains x with
            | false => simp only [hgone' ht, Bool.false_eq_true, and_self, and_true, and_false,
                if_true, if_false]
            | true => simp only [Bool.true_eq_false, and_false, true_and, if_false, Nat.zero_add]

/-- Where no node goes away there is nothing to announce. -/
theorem of_gains (hg : s.Gains (isAlive · = true) t)
    (hquiet : ∀ n ∈ trace, ∀ h, n.event ≠ .nodeDeleted h) : Mourns isAlive s trace t := by
  refine ⟨hg.tidy, hg.new, fun x => ?_⟩
  rw [deletions_eq_zero x trace fun n hn => hquiet n hn x, if_neg]
  rintro ⟨_, hs, ht⟩
  exact Bool.false_ne_true (ht.symm.trans (hg.kept x hs))

/-- The dead nodes of a list are announced that has all that went away. -/
theorem of_announced (out : List Handle) (ht : t.Tidy) (hnd : out.Nodup)
    (hheld : ∀ x ∈ out, s.contains x = true)
    (hall : ∀ x, s.contains x = true → t.contains x = false → x ∈ out)
    (hnew : ∀ x, t.contains x = true → s.contains x = true ∨ isAlive x = true) :
    Mourns isAlive s
      ((out.filter fun h => !t.contains h && !isAlive h).map fun h => ⟨.nodeDeleted h, t⟩) t := by
  refine ⟨ht, hnew, fun x => ?_⟩
  have hcount : deletions x ((out.filter fun h => !t.contains h && !isAlive h).map
      fun h => (⟨.nodeDeleted h, t⟩ : Notice)) =
      (out.filter fun h => !t.contains h && !isAlive h).count x := by
    rw [deletions, List.countP_map, List.count]
    refine List.countP_congr fun y _ => ?_
    simp only [Function.comp_apply, Event.nodeDeleted.injEq, decide_eq_true_eq, beq_iff_eq]
  rw [hcount, (hnd.filter _).count]
  refine if_congr ?_ rfl rfl
  rw [List.mem_filter, Bool.and_eq_true, Bool.not_eq_true', Bool.not_eq_true']
  constructor
  · rintro ⟨hx, hgone, hdead⟩
    exact ⟨hdead, hheld x hx, hgone⟩
  · rintro ⟨hdead, hs, hgone⟩
    exact ⟨hall x hs hgone, hgone, hdead⟩

end Mourns

namespace Step

/-- What was announced between two moments of a step mourns. -/
def Mourns (isAlive : Handle → Bool) (s s' : Step) : Prop :=
  s.store.Tidy → ∃ trace, s'.trace = s.trace ++ trace ∧
    TreeWatch.Mourns isAlive s.store trace s'.store

/-- A computation mourns from the moment `s` to the one it ends with. -/
def Mourning {α : Type} (isAlive : Handle → Bool) (s : Step) (out : α → Step)
    (r : Except Fault α) : Prop :=
  ∀ a, r = .ok a → s.Mourns isAlive (out a)

section Quiet

variable (isAlive : Handle → Bool) (s : Step)

/-- No deletion was announced between two moments of a step. -/
def Quiet (s s' : Step) : Prop :=
  ∃ trace, s'.trace = s.trace ++ trace ∧ ∀ n ∈ trace, ∀ h, n.event ≠ .nodeDeleted h

theorem Quiet.of_eq (s' : Step) (htrace : s'.trace = s.trace) : s.Quiet s' :=
  ⟨[], htrace.trans (List.append_nil _).symm, fun _ hn => absurd hn List.not_mem_nil⟩

-- An announced change is announced twice.
theorem Quiet.pair (m s' : Step) (h : s.Quiet m) (n n' : Notice)
    (hn : ∀ h, n.event ≠ .nodeDeleted h) (hn' : ∀ h, n'.event ≠ .nodeDeleted h)
    (htrace : s'.trace = m.trace ++ [n] ++ [n']) : s.Quiet s' := by
  rcases h with ⟨trace, hm, hquiet⟩
  refine ⟨trace ++ [n, n'], ?_, fun k hk => ?_⟩
  · rw [htrace, hm, List.append_assoc, List.append_assoc]
    rfl
  · rcases List.mem_append.mp hk with hk | hk
    · exact hquiet k hk
    · rcases List.mem_pair.mp hk with rfl | rfl
      · exact hn
      · exact hn'

/-- Where no deletion is announced, no node may go away. -/
theorem Quiet.mourns (s' : Step) (h : s.Quiet s')
    (hg : s.store.Tidy → s.store.Gains (isAlive · = true) s'.store) : s.Mourns isAlive s' := by
  rcases h with ⟨trace, htrace, hquiet⟩
  exact fun hs => ⟨trace, htrace, .of_gains isAlive _ _ trace (hg hs) hquiet⟩

/-- After a change that was announced as such, the deletions follow. -/
theorem Quiet.announceDeleted (m : Step) (h : s.Quiet m) (out : List Handle)
    (hout : s.store.Tidy → TreeWatch.Mourns isAlive s.store
      ((out.filter fun h => !m.store.contains h && !isAlive h).map
        fun h => ⟨.nodeDeleted h, m.store⟩) m.store) :
    s.Mourns isAlive (m.announceDeleted isAlive out) := by
  rcases h with ⟨quiet, htrace, hquiet⟩
  intro hs
  have hbefore : TreeWatch.Mourns isAlive s.store quiet s.store :=
    .of_gains isAlive s.store s.store quiet (.refl s.store _ hs) hquiet
  refine ⟨quiet ++ _, ?_, hbefore.append _ _ _ _ _ _ (hout hs)⟩
  rw [Step.announceDeleted, htrace, List.append_assoc]

-- Bookkeeping.
theorem Mourns.of_eq (s' : Step) (hstore : s'.store = s.store) (htrace : s'.trace = s.trace) :
    s.Mourns isAlive s' :=
  (Quiet.of_eq s s' htrace).mourns isAlive s s' fun hs => hstore ▸ .refl s.store _ hs

end Quiet

section Compositions

variable (isAlive : Handle → Bool) (s s' s'' : Step)

theorem Mourns.trans (h : s.Mourns isAlive s') (h' : s'.Mourns isAlive s'') :
    s.Mourns isAlive s'' := by
  intro hs
  rcases h hs with ⟨before, hbefore, hmourns⟩
  rcases h' hmourns.tidy with ⟨after, hafter, hmourns'⟩
  refine ⟨before ++ after, ?_, hmourns.append _ _ _ _ _ _ hmourns'⟩
  rw [hafter, hbefore, List.append_assoc]

variable {α : Type} (out : α → Step)

theorem Mourning.ok (a : α) (h : s.Mourns isAlive (out a)) : Mourning isAlive s out (.ok a) :=
  Abides.ok (Mourns isAlive) s out a h

theorem Mourning.error (f : Fault) : Mourning isAlive s out (.error f) :=
  Abides.error (Mourns isAlive) s out f

end Compositions

section Primitives

variable (isAlive : Handle → Bool) (s : Step)

/-- Rows are removed, and the dead among the forgotten nodes are announced. -/
theorem mourning_removeRows (parent : Handle) (first last : Nat) :
    Mourning isAlive s id (s.removeRows isAlive parent first last) := by
  intro s' hok
  rcases s.removeRows_cases isAlive parent first last s' hok with
    rfl | ⟨under, m, out, rfl, hstore, htrace, rfl, _⟩
  · exact .of_eq isAlive s' s' rfl rfl
  · refine Quiet.announceDeleted isAlive s m ?_ _ fun hs => ?_
    · exact (Quiet.of_eq s s rfl).pair s _ _ _ _ (fun _ => Event.noConfusion)
        (fun _ => Event.noConfusion) htrace
    · -- The removed nodes have a parent, so the root is not among them.
      have hroot : ∀ v ∈ ((s.store.children parent).drop first).take (last + 1 - first),
          s.store.root ≠ some v := by
        intro v hv
        have hmem := List.mem_of_mem_drop (List.mem_of_mem_take hv)
        exact hs.root_ne s.store parent v (hs.up parent v hmem)
      have hsheds := hs.sheds_removeAll s.store _ hroot
      rw [hstore]
      refine .of_announced isAlive s.store _ _ hsheds.tidy hsheds.nodup hsheds.held
        (fun x hx hgone => ?_) fun x hx => Or.inl ((hsheds.left x).mp hx).1
      by_contra hout
      rw [(hsheds.left x).mpr ⟨hx, hout⟩] at hgone
      exact Bool.false_ne_true hgone.symm

/-- A batch is inserted. What is new has to be alive. -/
theorem mourning_insertRows (parent : Handle) (first : Nat) (handles : List Handle)
    (fill : Snapshot)
    (halive : ∀ h ∈ handles, isAlive h = true ∧ ∀ x ∈ fill.descendants h, isAlive x = true) :
    Mourning isAlive s id (s.insertRows parent first handles fill) := by
  intro s' hok
  rcases s.insertRows_cases parent first handles fill s' hok with
    rfl | ⟨under, last, hins, htrace, _⟩
  · exact .of_eq isAlive s' s' rfl rfl
  · refine Quiet.mourns isAlive s s' ?_ fun hs => ?_
    · exact (Quiet.of_eq s s rfl).pair s _ _ _ _ (fun _ => Event.noConfusion)
        (fun _ => Event.noConfusion) htrace
    · have hgains := hs.gains_insertFilled s.store parent handles fill _ hins
      refine ⟨hgains.tidy, hgains.kept, fun x hx => (hgains.new x hx).imp_right ?_⟩
      rintro ⟨h, hh, rfl | hx⟩
      · exact (halive _ hh).1
      · exact (halive h hh).2 x hx

/-- A node is moved. No node goes away for good. -/
theorem mourning_relocate (h parent : Handle) :
    Mourning isAlive s Prod.snd (s.relocate h parent) := by
  intro done hok
  rcases s.relocate_cases h parent done hok with
    hsame | ⟨source, oldRow, row, under, under', _, hp, hstore, htrace, _⟩
  · exact .of_eq isAlive s _ (congrArg store hsame) (congrArg trace hsame)
  · refine Quiet.mourns isAlive s done.2 ?_ fun hs => ?_
    · -- The node is announced as gone, and then as there.
      have hout : s.Quiet { s with trace := _ } := (Quiet.of_eq s s rfl).pair s _ _
        ⟨.rowsAboutToBeRemoved under oldRow oldRow, s.store⟩
        ⟨.rowsRemoved under oldRow oldRow, (s.store.detach h).2⟩
        (fun _ => Event.noConfusion) (fun _ => Event.noConfusion) rfl
      exact hout.pair s _ _ _ _ (fun _ => Event.noConfusion) (fun _ => Event.noConfusion) htrace
    · have hmoved := hs.sheds_moved s.store source h hp parent
      rw [hstore]
      refine ⟨hmoved.tidy, fun x hx => ?_, fun x hx => Or.inl ((hmoved.left x).mp hx).1⟩
      exact (hmoved.left x).mpr ⟨hx, List.not_mem_nil⟩

/-- After the record was replaced by one with live nodes, all its nodes are
    mourned. -/
theorem Quiet.replaced (m : Step) (h : s.Quiet m) (htidy : m.store.Tidy)
    (hlive : ∀ x, m.store.contains x = true → isAlive x = true) (previous : List Handle)
    (hprevious : s.store.Tidy →
      previous.Nodup ∧ ∀ x, x ∈ previous ↔ s.store.contains x = true) :
    s.Mourns isAlive (m.announceDeleted isAlive previous) := by
  refine h.announceDeleted isAlive s m previous fun hs => ?_
  rcases hprevious hs with ⟨hnd, hmem⟩
  exact .of_announced isAlive s.store _ _ htidy hnd (fun x => (hmem x).mp)
    (fun x hx _ => (hmem x).mpr hx) fun x hx => Or.inr (hlive x hx)

-- A fresh record with all that is below its root.
theorem live_of_populated (r : Handle) (fill : Snapshot) (hr : isAlive r = true)
    (hbelow : ∀ x ∈ fill.descendants r, isAlive x = true) (x : Handle)
    (hx : ((Store.ofRoot (some r)).populate r fill).contains x = true) : isAlive x = true := by
  rcases ((Store.tidy_ofRoot (some r)).gains_populate _ r fill).new x hx with hx | hx
  · rcases (Store.contains_iff _ x).mp hx with he | ⟨p, hp⟩
    · exact Option.some.inj he ▸ hr
    · exact absurd ((Store.parent_ofRoot (some r) x).symm.trans hp)
        (by simp only [reduceCtorEq, not_false_eq_true])
  · exact hbelow x hx

/-- The whole record is replaced. If it has a root it must be a tree, for a
    walk to find all that goes away. -/
theorem mourns_reset (root : Option Handle) (fill : Snapshot)
    (hwhole : s.store.root = none ∨ s.store.Sound)
    (halive : ∀ r, root = some r → isAlive r = true ∧ ∀ x ∈ fill.descendants r, isAlive x = true) :
    s.Mourns isAlive (s.reset isAlive root fill) := by
  unfold reset
  refine Quiet.replaced isAlive s _ ?_ ?_ (fun x hx => ?_) _ fun hs => ?_
  · exact (Quiet.of_eq s s rfl).pair s _ _ ⟨.modelAboutToBeReset, _⟩ ⟨.modelReset, _⟩
      (fun _ => Event.noConfusion) (fun _ => Event.noConfusion) rfl
  · cases root with
    | none => exact Store.tidy_ofRoot none
    | some r => exact ((Store.tidy_ofRoot (some r)).gains_populate _ r fill).tidy
  · cases root with
    | none => exact absurd hx Bool.false_ne_true
    | some r => exact live_of_populated isAlive r fill (halive r rfl).1 (halive r rfl).2 x hx
  · cases hroot : s.store.root with
    | none =>
        refine ⟨List.nodup_nil, fun x => iff_of_false List.not_mem_nil fun hx => ?_⟩
        rcases (s.store.contains_iff x).mp hx with hr | ⟨p, hp⟩
        · exact absurd (hroot.symm.trans hr) (Option.some_ne_none x).symm
        · exact hs.rooted x p hp hroot
    | some old =>
        have hsound := hwhole.resolve_left (hroot ▸ Option.some_ne_none old)
        refine ⟨List.nodup_cons.mpr ⟨hsound.not_mem_descendants s.store old,
          hsound.nodup_descendants s.store old⟩, fun x => ?_⟩
        rw [hsound.mem_subtree, s.store.contains_iff_held]
        refine ⟨fun hu => Forest.held_of_above _ _ x old hu (Or.inl hroot), fun hx => ?_⟩
        rcases hsound.tree.held_under_root x hx with ⟨r, hr, hu⟩
        exact Option.some.inj (hroot.symm.trans hr) ▸ hu

omit s in
/-- The changes of a record mourn, if only live nodes come in. -/
theorem law_mourns : Law isAlive (isAlive · = true) (Mourns isAlive) where
  keeps := Mourns.of_eq isAlive
  trans := Mourns.trans isAlive
  removeRows := mourning_removeRows isAlive
  insertRows := mourning_insertRows isAlive
  reset := mourns_reset isAlive

end Primitives

end Step

end TreeWatch
