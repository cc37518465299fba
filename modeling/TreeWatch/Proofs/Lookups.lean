import TreeWatch.Proofs.FullPass
import TreeWatch.Proofs.Laws

/-!
# Remembered Rows Are Right

A step looks up the row of a parent once and remembers it for as long as the
node still sits there. Between two lookups the parent may have been moved,
removed and put back, and its neighbours may have come and gone. Nothing of
this matters. No handle is twice in a child list, so a node sits in no row but
its own, and a remembered row that passes the test is the one a search would
find (`Step.parentIndex_eq`).

An announcement that rows changed carries the cell that was looked up before
they did. It is still right then, because a change of the rows under a node
leaves the row of the node itself alone. This has to be seen for the record
between the two halves of a move as well. That record is not sound. But the
nodes outside of the moved subtree have the parents and the children that they
have in the record without it, so they are shown in the same rows.

## Main definitions

* `Event.parentCell`: The cell that an event announces rows of.
* `Notice.LookedUp`: The cell that an event announces rows of was looked up.
* `Store.Shows`: A record shows the node of a cell in this cell.
* `Notice.Located`: The cell that an event announces rows of is shown.

## Theorems

* `Step.parentIndex_eq`: What is looked up is what a search finds.
* `Store.Cuts.shows_iff`: A change of rows leaves the row of their parent alone.
* `Store.Sound.indexForNode_detach`: So does taking a node out.
* `Pass.Act.located`: The cells that an act announces are where they are shown.
* `Pass.run_shows`: So are all cells that a pass announces.
-/

namespace TreeWatch

open Forest (Under under_iff_up)

/-- The cell that an event announces rows of. -/
def Event.parentCell : Event → Option (Option Index)
  | rowsAboutToBeRemoved parent _ _ => some parent
  | rowsRemoved parent _ _ => some parent
  | rowsAboutToBeInserted parent _ _ => some parent
  | rowsInserted parent _ _ => some parent
  | _ => none

/-- If the announcement comes before a change of rows, it carries the answer to
    a lookup in the record of that moment. -/
def Notice.LookedUp (n : Notice) : Prop :=
  match n.event with
  | .rowsAboutToBeRemoved under _ _ =>
      ∃ (m : Step) (p : Handle), m.store = n.store ∧ under = (m.parentIndex p).1
  | .rowsAboutToBeInserted under _ _ =>
      ∃ (m : Step) (p : Handle), m.store = n.store ∧ under = (m.parentIndex p).1
  | _ => True

namespace Store

/-- The node of the cell is shown in this cell. -/
def Shows (s : Store) (i : Index) : Prop := s.indexForNode i.node = some i

-- Where no handle is listed twice, a node sits in no row but its own.
theorem rowOf?_of_sitsAt (s : Store) (hnd : ∀ p, (s.children p).Nodup) (h : Handle) (row : Nat)
    (hrow : s.sitsAt h row = true) : s.rowOf? h = some row := by
  unfold sitsAt at hrow
  unfold rowOf?
  by_cases hr : s.root = some h
  · rw [if_pos hr, decide_eq_true_eq] at hrow
    rw [if_pos hr, hrow]
  · rw [if_neg hr] at hrow ⊢
    cases hp : s.parent h with
    | none =>
        rw [hp] at hrow
        exact absurd hrow Bool.false_ne_true
    | some p =>
        rw [hp, decide_eq_true_eq] at hrow
        exact (Handle.idxOf?_eq_some_iff_of_nodup _ (hnd p) h row).mpr hrow

/-- Two records agree on where they show a node if they agree on it and on all
    nodes above it. -/
theorem indexWithin_congr (s t : Store) (above : Handle → Prop) (hroot : s.root = t.root)
    (hup : ∀ x p, above x → s.parent x = some p → above p)
    (hparent : ∀ x, above x → s.parent x = t.parent x)
    (hkids : ∀ x, above x → s.children x = t.children x) (bound : Nat) (h : Handle)
    (hh : above h) : s.indexWithin bound h = t.indexWithin bound h := by
  induction bound generalizing h with
  | zero =>
      unfold indexWithin
      rw [hroot, ← hparent h hh]
  | succ bound ih =>
      unfold indexWithin
      rw [hroot, ← hparent h hh]
      cases hp : s.parent h with
      | none => rfl
      | some p =>
          have hpa := hup h p hh hp
          simp only [ih p hpa, hkids p hpa]

end Store

namespace Step

/-- A lookup finds the row that a search would find, whatever is remembered. -/
theorem parentIndex_eq (s : Step) (hnd : ∀ p, (s.store.children p).Nodup) (parent : Handle) :
    (s.parentIndex parent).1 = (s.store.rowOf? parent).map (Index.ofRow · parent) := by
  unfold parentIndex
  cases hfound : s.rows[parent]?.filter (s.store.sitsAt parent) with
  | some row =>
      have hsits := (Option.filter_eq_some_iff.mp hfound).2
      rw [s.store.rowOf?_of_sitsAt hnd parent row hsits]
      rfl
  | none =>
      dsimp only
      cases s.store.rowOf? parent <;> rfl

-- What a lookup finds is a cell of the node that was looked up.
theorem node_of_parentIndex (s : Step) (parent : Handle) (i : Index)
    (hi : some i = (s.parentIndex parent).1) : i.node = parent := by
  unfold parentIndex at hi
  split at hi
  · exact Option.some.inj hi ▸ rfl
  · dsimp only at hi
    split at hi
    · exact Option.some.inj hi ▸ rfl
    · exact absurd hi (Option.some_ne_none i)

/-- Over a sound record a lookup finds where the node is shown. -/
theorem parentIndex_shown (s : Step) (hs : s.store.Sound) (parent : Handle) :
    (s.parentIndex parent).1 = s.store.indexForNode parent := by
  rw [s.parentIndex_eq hs.tree.nodup, hs.indexForNode_eq]
  cases hp : s.store.contains parent with
  | true => rfl
  | false =>
      rcases (s.store.not_contains_iff parent).mp hp with ⟨hroot, hnone⟩
      rw [Store.rowOf?, if_neg hroot, hnone]
      rfl

end Step

namespace Store

section Fresh

variable (s : Store)

-- A cell that was found by a lookup in a sound record is shown.
theorem Sound.shows_of_lookedUp (hs : s.Sound) (m : Step) (p : Handle) (i : Index)
    (hm : m.store = s) (hi : some i = (m.parentIndex p).1) : s.Shows i := by
  subst hm
  rw [m.parentIndex_shown hs] at hi
  rw [Shows, (hs.indexForNode_spec m.store p i hi.symm).1, ← hi]

/-- When rows under a node go away, the node keeps its own row. -/
theorem Cuts.shows_iff (t : Store) (gone : Handle → Prop) (hst : s.Cuts t gone) (hs : s.Sound)
    (rows : List Handle) (i : Index) (hi : s.contains i.node = true)
    (hrow : ∀ v ∈ rows, s.parent v = some i.node)
    (hgone : ∀ x, gone x ↔ ∃ v ∈ rows, Under s.parent x v) : t.Shows i ↔ s.Shows i := by
  have hstay : ¬ gone i.node := mt (hgone i.node).mp (hs.parent_not_under_rows s i.node rows hrow)
  have hrowOf : t.rowOf? i.node = s.rowOf? i.node := by
    rw [rowOf?, rowOf?, hst.root, hst.links.kept i.node hstay]
    cases hp : s.parent i.node with
    | none => rfl
    | some p =>
        -- The list of another node that stays is not changed.
        have hne : i.node ≠ p := by
          rintro he
          exact hs.tree.acyclic i.node p hp (he ▸ Under.refl i.node)
        have hpstay : ¬ gone p := fun hg => hstay (hst.links.down i.node p hp hg)
        rw [Option.bind_some, Option.bind_some,
          hst.children_elsewhere hs i.node rows hrow hgone p hne hpstay]
  rw [Shows, Shows, hst.sound.indexForNode_eq, hs.indexForNode_eq, hrowOf, hi,
    (hst.contains_iff i.node).mpr ⟨hi, hstay⟩]

section Detached

variable (hs : s.Sound) (h p : Handle) (hp : s.parent h = some p) (x : Handle)
  (hx : (s.remove h).2.contains x = true)

include hs hp hx

/-- A record with a node taken out shows every node outside of the subtree, in
    the row that it has in the record without the subtree. -/
theorem Sound.indexForNode_detach :
    (s.detach h).2.indexForNode x = (s.remove h).2.indexForNode x ∧
      (s.detach h).2.rowOf? x = (s.remove h).2.rowOf? x := by
  have hcut := hs.cuts_remove s h (hs.tree.root_ne h p hp)
  have hroot : (s.detach h).2.root = (s.remove h).2.root :=
    (s.root_detach h).trans hcut.root.symm
  have hup : ∀ y q, (s.remove h).2.contains y = true → (s.detach h).2.parent y = some q →
      (s.remove h).2.contains q = true := by
    intro y q hy hq
    rw [(hs.outside_detach s h p hp y hy).2.1] at hq
    exact (contains_iff_held _ q).mpr (hcut.sound.tree.held_up y q hq)
  have hrow : (s.detach h).2.rowOf? x = (s.remove h).2.rowOf? x := by
    rw [rowOf?, rowOf?, hroot, (hs.outside_detach s h p hp x hx).2.1]
    cases hq : (s.remove h).2.parent x with
    | none => rfl
    | some q =>
        rw [← (hs.outside_detach s h p hp x hx).2.1] at hq
        rw [Option.bind_some, Option.bind_some,
          (hs.outside_detach s h p hp q (hup x q hx hq)).2.2]
  refine ⟨?_, hrow⟩
  -- No path outside of the subtree is longer than the bound on the search.
  have hlevel : Forest.level (s.remove h).2.parent x ≤ (s.detach h).2.parents.size + 1 := by
    have hle := hcut.sound.tree.level_le ((s.remove h).2.root.toList ++ (s.detach h).2.parents.keys)
      (fun y hy => ?_) x ((contains_iff_held _ x).mp hx)
    · rw [List.length_append, Std.ExtTreeMap.length_keys] at hle
      have hone : (s.remove h).2.root.toList.length ≤ 1 := by
        cases (s.remove h).2.root <;> simp
      omega
    · rw [List.mem_append, Option.mem_toList, Std.ExtTreeMap.mem_keys,
        Std.ExtTreeMap.mem_iff_contains, HandleMap.contains_iff]
      rcases hy with hr | ⟨q, hq⟩
      · exact Or.inl hr
      · have hyt := (contains_iff _ y).mpr (Or.inr ⟨q, hq⟩)
        rw [← (hs.outside_detach s h p hp y hyt).2.1] at hq
        exact Or.inr ⟨q, hq⟩
  rcases hcut.sound.indexWithin_of_level _ _ x hx hlevel with ⟨row, hrowx, hin⟩
  rw [hcut.sound.indexForNode_eq, hx, if_pos rfl, hrowx, Option.map_some, ← hin]
  exact indexWithin_congr _ _ (fun y => (s.remove h).2.contains y = true) hroot hup
    (fun y hy => (hs.outside_detach s h p hp y hy).2.1)
    (fun y hy => (hs.outside_detach s h p hp y hy).2.2) _ x hx

/-- A cell that was found by a lookup in a record with a node taken out is shown,
    in this record and in the one without the subtree. -/
theorem Sound.shows_detach (m : Step) (i : Index) (hm : m.store = (s.detach h).2)
    (hi : some i = (m.parentIndex x).1) : (s.detach h).2.Shows i ∧ (s.remove h).2.Shows i := by
  have hcut := hs.cuts_remove s h (hs.tree.root_ne h p hp)
  rcases hs.indexForNode_detach s h p hp x hx with ⟨hindex, hrow⟩
  have hnd : ∀ q, ((s.detach h).2.children q).Nodup := fun q =>
    (hs.ascending_detach s p h hp q).nodup
  rw [m.parentIndex_eq (hm ▸ hnd), hm, hrow] at hi
  rcases Option.map_eq_some_iff.mp hi.symm with ⟨row, hxrow, rfl⟩
  have hshown : (s.remove h).2.indexForNode x = some (Index.ofRow row x) := by
    rw [hcut.sound.indexForNode_eq, hx, if_pos rfl, hxrow, Option.map_some]
  exact ⟨hindex.trans hshown, hshown⟩

end Detached

end Fresh

end Store

namespace Step

/-- Between two moments of a step, every cell that rows were announced of before
    they changed was looked up. -/
def Looks (s s' : Step) : Prop :=
  ∃ trace, s'.trace = s.trace ++ trace ∧ ∀ n ∈ trace, n.LookedUp

section Laws

variable (isAlive : Handle → Bool) (s : Step)

-- What is announced with a change after its first announcement is no lookup.
theorem looks_announceDeleted (m : Step) (pruned : List Handle) (h : Looks s m) :
    Looks s (m.announceDeleted isAlive pruned) := by
  rcases h with ⟨trace, htrace, hlooked⟩
  refine ⟨trace ++ _, (congrArg (· ++ _) htrace).trans (List.append_assoc _ _ _), fun n hn => ?_⟩
  rcases List.mem_append.mp hn with hn | hn
  · exact hlooked n hn
  · rcases List.mem_map.mp hn with ⟨_, _, rfl⟩
    trivial

theorem looks_removeRows (parent : Handle) (first last : Nat) :
    Abides Looks s id (s.removeRows isAlive parent first last) := by
  intro s' hok
  rcases s.removeRows_cases isAlive parent first last s' hok with
    rfl | ⟨under, m, out, _, _, htrace, rfl, hunder, _⟩
  · exact ⟨[], (List.append_nil s'.trace).symm, fun _ hn => absurd hn List.not_mem_nil⟩
  · refine looks_announceDeleted isAlive s m out.1
      ⟨_, htrace.trans (List.append_assoc _ _ _), fun n hn => ?_⟩
    rcases List.mem_pair.mp hn with rfl | rfl
    · exact ⟨s, parent, rfl, hunder⟩
    · trivial

theorem looks_insertRows (parent : Handle) (first : Nat) (handles : List Handle)
    (fill : Snapshot) : Abides Looks s id (s.insertRows parent first handles fill) := by
  intro s' hok
  rcases s.insertRows_cases parent first handles fill s' hok with
    rfl | ⟨under, last, _, htrace, hunder, _⟩
  · exact ⟨[], (List.append_nil s'.trace).symm, fun _ hn => absurd hn List.not_mem_nil⟩
  · refine ⟨_, htrace.trans (List.append_assoc _ _ _), fun n hn => ?_⟩
    rcases List.mem_pair.mp hn with rfl | rfl
    · exact ⟨s, parent, rfl, hunder⟩
    · trivial

theorem looks_relocate (h parent : Handle) :
    Abides Looks s Prod.snd (s.relocate h parent) := by
  intro done hok
  rcases s.relocate_cases h parent done hok with
    hsame | ⟨source, oldRow, row, under, under', m, _, _, htrace, _, _, hunder, hm, hunder', _⟩
  · exact ⟨[], by rw [hsame, List.append_nil], fun _ hn => absurd hn List.not_mem_nil⟩
  · rw [List.append_assoc, List.append_assoc, List.append_assoc] at htrace
    refine ⟨_, htrace, fun n hn => ?_⟩
    simp only [List.cons_append, List.nil_append, List.mem_cons, List.not_mem_nil, or_false] at hn
    rcases hn with rfl | rfl | rfl | rfl
    · exact ⟨s, source, rfl, hunder⟩
    · trivial
    · exact ⟨m, parent, hm, hunder'⟩
    · trivial

theorem looks_reset (root : Option Handle) (fill : Snapshot) :
    Looks s (s.reset isAlive root fill) := by
  rcases s.reset_cases isAlive root fill with ⟨m, previous, htrace, _, hreset⟩
  rw [hreset]
  refine looks_announceDeleted isAlive s m previous ⟨_, htrace, fun n hn => ?_⟩
  rcases List.mem_pair.mp hn with rfl | rfl <;> trivial

omit s in
/-- Looking up the cell before rows change is a law of steps. -/
theorem law_looks (mayEnter : Handle → Prop) : Law isAlive mayEnter Looks where
  keeps s s' _ htrace := ⟨[], htrace.trans (List.append_nil s.trace).symm,
    fun _ hn => absurd hn List.not_mem_nil⟩
  trans := by
    rintro s s' s'' ⟨before, hbefore, hlooked⟩ ⟨after, hafter, hlooked'⟩
    refine ⟨before ++ after, by rw [hafter, hbefore, List.append_assoc], fun n hn => ?_⟩
    rcases List.mem_append.mp hn with hn | hn
    · exact hlooked n hn
    · exact hlooked' n hn
  removeRows s := s.looks_removeRows isAlive
  insertRows s parent first handles fill _ := s.looks_insertRows parent first handles fill
  reset s root fill _ _ := s.looks_reset isAlive root fill

end Laws

end Step

/-- If the announcement is of a change of rows, the cell that the rows are under is
    given, and the record of the moment shows it. -/
def Notice.Located (n : Notice) : Prop :=
  ∀ under, n.event.parentCell = some under → ∃ i, under = some i ∧ n.store.Shows i

namespace Pass

section Acts

variable (live : Snapshot)

-- A pair of announcements about the same cell.
theorem located_pair (i : Index) (first last : Nat) (s t : Store) (hs : s.Shows i)
    (ht : t.Shows i) :
    (∀ n ∈ removal i first last s t, n.Located) ∧ ∀ n ∈ insertion i first last s t, n.Located := by
  constructor
  · intro n hn under hunder
    rcases List.mem_pair.mp hn with rfl | rfl
    · exact ⟨i, (Option.some.inj hunder).symm, hs⟩
    · exact ⟨i, (Option.some.inj hunder).symm, ht⟩
  · intro n hn under hunder
    rcases List.mem_pair.mp hn with rfl | rfl
    · exact ⟨i, (Option.some.inj hunder).symm, hs⟩
    · exact ⟨i, (Option.some.inj hunder).symm, ht⟩

variable (hlive : live.Proper)

include hlive

/-- The cells that an act announces are shown where they are announced. -/
theorem Act.located (s t : Store) (trace : List Notice) (h : Act live s trace t)
    (hlooked : ∀ n ∈ trace, n.LookedUp) : ∀ n ∈ trace, n.Located := by
  cases h with
  | removal _ i front rows back gone spare cuts untracked =>
      rcases hlooked _ (List.mem_append_left _ List.mem_cons_self) with ⟨m, p, hm, hi⟩
      have hshown := spare.sound.shows_of_lookedUp s m p i hm hi
      have hrow : ∀ v ∈ rows, s.parent v = some i.node := by
        intro v hv
        rw [← spare.sound.tree.mem_kids, spare.kids]
        exact List.mem_append_left _ (List.mem_append_right _ hv)
      have hafter := (cuts.shows_iff s t _ spare.sound rows i spare.tracked hrow
        fun _ => Iff.rfl).mpr hshown
      intro n hn
      rcases List.mem_append.mp hn with hn | hn
      · exact (located_pair i _ _ s t hshown hafter).1 n hn
      · rcases List.mem_map.mp hn with ⟨x, _, rfl⟩
        exact fun under hunder => absurd hunder (Option.some_ne_none under).symm
  | move _ i j h front back front' back' stray rows rows' sound root links =>
      have hs := stray.fits.sound
      have hhi : s.parent h = some i.node := by
        rw [← hs.tree.mem_kids, rows]
        exact List.mem_append_left _ (List.mem_append_right _ (List.mem_singleton_self h))
      have hroot := hs.tree.root_ne h i.node hhi
      have hit := (s.contains_iff_held i.node).mpr (hs.tree.held_up h i.node hhi)
      have hjt := stray.fits.tracked_of_placed live s hlive j.node stray.placed
        (hlive.contains_of_parent live h j.node stray.parent).2
      have hjh : ¬ Under s.parent j.node h := by
        rw [stray.placed.under_iff live s j.node h]
        exact hlive.tree.acyclic h j.node stray.parent
      -- Without the subtree the record is a cut of what it was and of what it becomes.
      have hcut := hs.cuts_remove s h hroot
      have hcut' := hs.cuts_of_moved s t h hroot root fun x hx => by
        rw [links, if_neg (Ne.symm hx)]
      have hiStays := (hcut.contains_iff i.node).mpr ⟨hit, hs.tree.acyclic h i.node hhi⟩
      have hjStays := (hcut.contains_iff j.node).mpr ⟨hjt, hjh⟩
      have hone : ∀ (u : Store) (x : Handle),
          Under u.parent x h ↔ ∃ v ∈ [h], Under u.parent x v := fun u x => by
        simp only [List.mem_singleton, exists_eq_left]
      rcases hlooked _ (List.mem_append_left _ List.mem_cons_self) with ⟨m, p, hm, hi⟩
      rcases hlooked _ (List.mem_append_right _ List.mem_cons_self) with ⟨m', p', hm', hj⟩
      have hshown := hs.shows_of_lookedUp s m p i hm hi
      have hout := (hcut.shows_iff s _ _ hs [h] i hit
        (fun v hv => List.mem_singleton.mp hv ▸ hhi) (hone s)).mpr hshown
      have hdetached : (s.detach h).2.Shows i :=
        (hs.indexForNode_detach s h i.node hhi i.node hiStays).1.trans hout
      rw [← m'.node_of_parentIndex p' j hj] at hj
      rcases hs.shows_detach s h i.node hhi j.node hjStays m' j hm' hj with ⟨hbefore, hwithout⟩
      have hafter := (hcut'.shows_iff t _ _ sound [h] j
        ((hcut'.contains_iff j.node).mp hjStays).1
        (fun v hv => by rw [List.mem_singleton.mp hv, links, if_pos rfl]) (hone t)).mp hwithout
      intro n hn
      rcases List.mem_append.mp hn with hn | hn
      · exact (located_pair i _ _ s _ hshown hdetached).1 n hn
      · exact (located_pair j _ _ _ t hbefore hafter).2 n hn
  | insertion _ i front batch back fresh planted rows =>
      have hs := fresh.fits.sound
      rcases hlooked _ List.mem_cons_self with ⟨m, p, hm, hi⟩
      have hshown := hs.shows_of_lookedUp s m p i hm hi
      have hclear : s.Clear batch live := by
        intro b hb v hv hc
        rw [fresh.below v (List.mem_flatMap.mpr ⟨b, hb, hv⟩)] at hc
        exact absurd hc Bool.false_ne_true
      have hcut := planted.cuts hs hlive fresh.new hclear
      rcases List.exists_mem_of_ne_nil batch fresh.nonempty with ⟨b, hb⟩
      have hit := (t.contains_iff_held i.node).mpr
        (planted.sound.tree.held_up b i.node (planted.top b hb (fresh.new b hb)))
      have hafter := (hcut.shows_iff t s _ planted.sound batch i hit
        (fun v hv => planted.top v hv (fresh.new v hv)) fun _ => Iff.rfl).mp hshown
      exact (located_pair i _ _ s t hshown hafter).2

/-- So are those that a course of acts announces. -/
theorem Course.located (s t : Store) (trace : List Notice) (h : Course live s trace t)
    (hlooked : ∀ n ∈ trace, n.LookedUp) : ∀ n ∈ trace, n.Located := by
  induction h with
  | nil s => exact fun _ hn => absurd hn List.not_mem_nil
  | cons s t u trace rest act _ ih =>
      intro n hn
      rcases List.mem_append.mp hn with hn | hn
      · exact act.located live hlive s t trace
          (fun m hm => hlooked m (List.mem_append_left rest hm)) n hn
      · exact ih (fun m hm => hlooked m (List.mem_append_right trace hm)) n hn

end Acts

/-- Whenever a pass announces that rows change or have changed, the cell that the
    rows are under is given, and it is where the record shown with the
    announcement has it. The rows that a pass remembers in the end are right as
    well, so that a lookup finds what a search would find. -/
theorem run_shows (s : Store) (hs : s.check = none) (live : Snapshot) (hlive : live.Built)
    (isStrict : Bool) :
    ∃ s', run isStrict live { store := s } = .ok s' ∧
      (∀ n ∈ s'.trace, ∀ under, n.event.parentCell = some under →
        ∃ i, under = some i ∧ n.store.indexForNode i.node = some i) ∧
      ∀ h, (s'.parentIndex h).1 = s'.store.indexForNode h := by
  have hproper := hlive.proper live
  have hsound := s.check_eq_none_iff_sound.mp hs
  rcases run_spec live hproper { store := s } hsound with ⟨s', hrun, hsound', _⟩
  refine ⟨s', hrun isStrict, ?_, s'.parentIndex_shown hsound'⟩
  by_cases hroot : s.root = live.root
  · rcases run_works live hproper { store := s } hsound hroot with ⟨s'', hrun', hworks, _⟩
    have hsame : s' = s'' := Except.ok.inj ((hrun isStrict).symm.trans (hrun' isStrict))
    subst hsame
    rcases hworks.course with ⟨trace, htrace, hcourse, _⟩
    rcases abides_run live (Step.law_looks live.contains _) hproper
      (fun m h parent => m.looks_relocate h parent) isStrict { store := s } hsound s'
      (hrun isStrict) with ⟨trace', htrace', hlooked⟩
    have hsametrace : trace' = trace := List.append_cancel_left (htrace'.symm.trans htrace)
    rw [show s'.trace = trace from htrace]
    exact hcourse.located live hproper s s'.store trace (hsametrace ▸ hlooked)
  · -- A pass that replaces the model announces no rows.
    rcases run_replaced live { store := s } hroot with ⟨s'', gone, hrun', htrace, _⟩
    have hsame : s' = s'' := Except.ok.inj ((hrun isStrict).symm.trans (hrun' isStrict))
    subst hsame
    rw [htrace, List.nil_append]
    intro n hn under hunder
    refine absurd hunder ?_
    rcases List.mem_append.mp hn with hn | hn
    · rcases List.mem_pair.mp hn with rfl | rfl <;> exact (Option.some_ne_none under).symm
    · rcases List.mem_map.mp hn with ⟨x, _, rfl⟩
      exact (Option.some_ne_none under).symm

/-- Two siblings, the second of which has a child. -/
def childOfTheSecond : Store :=
  (((Store.ofRoot (some ⟨1⟩)).link ⟨1⟩ ⟨2⟩).link ⟨1⟩ ⟨3⟩).link ⟨3⟩ ⟨4⟩

-- The second sibling loses its child in row 1 and gets another one in row 0.
theorem run_shows_of_shifted :
    childOfTheSecond.check = none ∧
      ∃ s', run true (.ofEdges ⟨1⟩ [(⟨1⟩, ⟨3⟩), (⟨3⟩, ⟨5⟩)]) { store := childOfTheSecond } =
          .ok s' ∧
        (∀ n ∈ s'.trace, ∀ under, n.event.parentCell = some under →
          ∃ i, under = some i ∧ n.store.indexForNode i.node = some i) ∧
        ∀ h, (s'.parentIndex h).1 = s'.store.indexForNode h :=
  ⟨by decide +kernel, run_shows childOfTheSecond (by decide +kernel) _ (.ofEdges ⟨1⟩ _) true⟩

end Pass

end TreeWatch
