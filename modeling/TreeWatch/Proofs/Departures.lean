import TreeWatch.Proofs.Undisturbed

/-!
# Rows That Leave

A pass takes a row out only while the node in it is loose: it is tracked, but it
or a node above it does not have its live parent. A node never gets loose in a
pass, and one that was taken out comes back in place or not at all. So a row is
taken out once, from the parent it had before the pass, and there are fewer such
rows than there are handles. The rows that come in are as few, because none of
them is the root.

## Main definitions

* `Pass.Loose`: A node is tracked and not in place.
* `Pass.Departs`: Loose nodes are taken out once and from where they were.

## Theorems

* `Pass.Departs.append`: Stretches of a trace one after the other.
* `Pass.Course.departs`: A course of acts takes out loose nodes only.
* `Pass.Course.rows_fit`: The rows that it announces fit a machine word.
-/

namespace TreeWatch

open Forest (Under)

namespace Pass

/-- The node is tracked and not in place. -/
def Loose (live : Snapshot) (s : Store) (x : Handle) : Prop :=
  s.contains x = true ∧ ¬ Placed live s x

/-- A trace that leads from one record to another takes out rows with loose nodes,
    each of them once and from the parent it had in the first record. A node that is
    loose in the end was so all the time and has stayed where it was. -/
structure Departs (live : Snapshot) (s : Store) (trace : List Notice) (t : Store) : Prop where
  row : ∀ n ∈ trace, ∀ x ∈ n.removed, Loose live s x ∧ s.parent x ≠ none ∧
    n.store.parent x = s.parent x
  nodup : (trace.flatMap Notice.removed).Nodup
  stays : ∀ x, Loose live t x → Loose live s x ∧ t.parent x = s.parent x ∧
    x ∉ trace.flatMap Notice.removed

section Stretches

variable (live : Snapshot) (s t u : Store)

theorem Departs.nil : Departs live s [] s :=
  ⟨fun _ hn => absurd hn List.not_mem_nil, List.nodup_nil,
    fun _ hx => ⟨hx, rfl, List.not_mem_nil⟩⟩

theorem Departs.append (before after : List Notice) (h : Departs live s before t)
    (h' : Departs live t after u) : Departs live s (before ++ after) u := by
  have hlater : ∀ n ∈ after, ∀ x ∈ n.removed, Loose live s x ∧ s.parent x ≠ none ∧
      n.store.parent x = s.parent x ∧ x ∉ before.flatMap Notice.removed := by
    intro n hn x hx
    rcases h'.row n hn x hx with ⟨hloose, hparent, hstore⟩
    rcases h.stays x hloose with ⟨hloose', hsame, hout⟩
    exact ⟨hloose', hsame ▸ hparent, hstore.trans hsame, hout⟩
  refine ⟨fun n hn x hx => ?_, ?_, fun x hx => ?_⟩
  · rcases List.mem_append.mp hn with hn | hn
    · exact h.row n hn x hx
    · rcases hlater n hn x hx with ⟨hloose, hparent, hstore, _⟩
      exact ⟨hloose, hparent, hstore⟩
  · rw [List.flatMap_append]
    refine List.nodup_append.mpr ⟨h.nodup, h'.nodup, fun x hx y hy => ?_⟩
    rintro rfl
    rcases List.mem_flatMap.mp hy with ⟨n, hn, hxn⟩
    exact (hlater n hn x hxn).2.2.2 hx
  · rcases h'.stays x hx with ⟨hloose, hsame, hout⟩
    rcases h.stays x hloose with ⟨hloose', hsame', hout'⟩
    refine ⟨hloose', hsame.trans hsame', ?_⟩
    rw [List.flatMap_append, List.mem_append, not_or]
    exact ⟨hout', hout⟩

/-- If only the first record is shown with rows that go away, the rows and what is
    loose in the end need to be looked at. -/
theorem departs_of_rows (trace : List Notice) (rows : List Handle) (hspares : Spares live s trace t)
    (hshown : ∀ n ∈ trace, n.removed ≠ [] → n.store = s)
    (hremoved : trace.flatMap Notice.removed = rows) (hnd : rows.Nodup)
    (hrows : ∀ x ∈ rows, Loose live s x ∧ s.parent x ≠ none)
    (hkept : ∀ x, Loose live t x → s.contains x = true ∧ t.parent x = s.parent x ∧ x ∉ rows) :
    Departs live s trace t := by
  subst hremoved
  refine ⟨fun n hn x hx => ?_, hnd, fun x hx => ?_⟩
  · rcases hrows x (List.mem_flatMap.mpr ⟨n, hn, hx⟩) with ⟨hloose, hparent⟩
    exact ⟨hloose, hparent, congrArg (Store.parent · x) (hshown n hn (List.ne_nil_of_mem hx))⟩
  · rcases hkept x hx with ⟨hsx, hsame, hout⟩
    exact ⟨⟨hsx, fun hp => hx.2 (hspares.placed x hp hsx).1⟩, hsame, hout⟩

end Stretches

section Acts

variable (live : Snapshot) (hlive : live.Proper) (s t : Store) (trace : List Notice)

include hlive

/-- Every act takes out loose nodes only. -/
theorem Act.departs (h : Act live s trace t) : Departs live s trace t := by
  have hspares := h.spares live hlive s t trace
  cases h with
  | removal _ i front rows back gone spare cuts untracked =>
      have hkid : ∀ v ∈ rows, s.parent v = some i.node := by
        intro v hv
        rw [← spare.sound.tree.mem_kids, spare.kids]
        exact List.mem_append_left back (List.mem_append_right front hv)
      have hnd := spare.sound.tree.nodup i.node
      rw [spare.kids] at hnd
      have hrows := s.rowsAt_eq i front rows back spare.kids spare.nonempty
      have hquiet := (quiet_farewell gone t).1
      refine departs_of_rows live s t _ rows hspares (shown_removal i _ _ s t _ hquiet) ?_
        (List.Nodup.of_append_right (List.Nodup.of_append_left hnd)) (fun v hv => ?_) fun x hx => ?_
      · rw [List.flatMap_append, removed_removal, hquiet, List.append_nil, hrows]
      · refine ⟨⟨(s.contains_iff v).mpr (Or.inr ⟨i.node, hkid v hv⟩), fun hp => ?_⟩, ?_⟩
        · exact spare.unplaced v hp ⟨v, hv, Under.refl v⟩
        · rw [hkid v hv]
          exact Option.some_ne_none i.node
      · rcases (cuts.contains_iff x).mp hx.1 with ⟨hsx, hstay⟩
        exact ⟨hsx, cuts.links.kept x hstay, fun hv => hstay ⟨x, hv, Under.refl x⟩⟩
  | move _ i j h front back front' back' stray rows rows' sound root links =>
      have hone := List.cons_ne_nil h []
      have hkid : s.parent h = some i.node := by
        rw [← stray.fits.sound.tree.mem_kids, rows]
        exact List.mem_append_left back (List.mem_append_right front (List.mem_singleton_self h))
      refine departs_of_rows live s t _ [h] hspares
        (shown_removal i _ _ s _ _ (removed_insertion j _ _ _ t)) ?_ (List.nodup_singleton h)
        (fun v hv => ?_) fun x hx => ?_
      · rw [List.flatMap_append, removed_removal, removed_insertion, List.append_nil]
        exact s.rowsAt_eq i front [h] back rows hone
      · rw [List.mem_singleton.mp hv, hkid]
        refine ⟨⟨stray.tracked, fun hp => stray.elsewhere ?_⟩, Option.some_ne_none i.node⟩
        rw [hp h (Under.refl h), stray.parent]
      · -- The moved node is in place now.
        have hxh : h ≠ x := by
          rintro rfl
          refine hx.2 (Placed.child live t h j.node ?_ stray.parent ?_)
          · have hn := stray.fits.tracked_of_placed live s hlive j.node stray.placed
              (hlive.contains_of_parent live h j.node stray.parent).2
            exact (hspares.placed j.node stray.placed hn).1
          · rw [links, if_pos rfl]
        have hsame := links x
        rw [if_neg hxh] at hsame
        refine ⟨?_, hsame, fun hv => hxh (List.mem_singleton.mp hv).symm⟩
        rw [s.contains_iff, ← root, ← hsame]
        exact (t.contains_iff x).mp hx.1
  | insertion _ i front batch back fresh planted rows =>
      refine departs_of_rows live s t _ [] hspares (fun n hn hne => ?_)
        (removed_insertion i _ _ s t) List.nodup_nil (fun v hv => absurd hv List.not_mem_nil)
        fun x hx => ?_
      · rcases List.mem_pair.mp hn with rfl | rfl <;> exact absurd rfl hne
      · cases hsx : s.contains x with
        | true => exact ⟨rfl, planted.old x hsx, List.not_mem_nil⟩
        | false =>
            -- What is new is in place.
            refine absurd ?_ hx.2
            rcases (t.contains_iff x).mp hx.1 with hr | ⟨p, hp⟩
            · rw [(s.contains_iff x).mpr (Or.inl (planted.root ▸ hr))] at hsx
              exact Bool.noConfusion hsx
            · have hadv := advances_of_planted live hlive i.node batch s t planted fresh.new
                fresh.parent fresh.below
              rcases under_of_planted live hlive i.node batch s t planted fresh.new fresh.parent
                fresh.below x p hsx hp with ⟨_, b, hb, hu⟩
              exact (finished_of_planted live hlive i.node batch s t planted fresh.new fresh.parent
                fresh.below fresh.fits.sound (hadv.placed i.node fresh.placed) b x hb hu).1

omit hlive in
/-- What comes in with its row has a live parent. -/
theorem Act.inserted_live (h : Act live s trace t) :
    ∀ x ∈ trace.flatMap Notice.inserted, live.parent x ≠ none := by
  intro x hx
  cases h with
  | removal _ i front rows back gone spare cuts untracked =>
      rw [List.flatMap_append, inserted_removal, (quiet_farewell gone t).2.1] at hx
      exact absurd hx List.not_mem_nil
  | move _ i j h front back front' back' stray rows rows' sound root links =>
      have hrows : t.rowsAt (some j) front'.length (front'.length + 1 - 1) = [h] :=
        t.rowsAt_eq j front' [h] back' rows' (List.cons_ne_nil h [])
      rw [List.flatMap_append, inserted_removal, inserted_insertion, List.nil_append, hrows,
        List.mem_singleton] at hx
      rw [hx, stray.parent]
      exact Option.some_ne_none j.node
  | insertion _ i front batch back fresh planted rows =>
      rw [inserted_insertion, t.rowsAt_eq i front batch back rows fresh.nonempty] at hx
      rw [fresh.parent x hx]
      exact Option.some_ne_none i.node

end Acts

section Courses

variable (live : Snapshot) (hlive : live.Proper) (s t : Store) (trace : List Notice)

include hlive

theorem Course.departs (h : Course live s trace t) : Departs live s trace t := by
  induction h with
  | nil s => exact .nil live s
  | cons s t u trace rest act _ ih =>
      exact (act.departs live hlive s t trace).append live s t u trace rest ih

omit hlive in
theorem Course.inserted_live (h : Course live s trace t) :
    ∀ x ∈ trace.flatMap Notice.inserted, live.parent x ≠ none := by
  induction h with
  | nil s => exact fun _ hx => absurd hx List.not_mem_nil
  | cons s t u trace rest act _ ih =>
      intro x hx
      rw [List.flatMap_append] at hx
      rcases List.mem_append.mp hx with hx | hx
      · exact act.inserted_live live s t trace x hx
      · exact ih x hx

omit hlive in
-- Nodes with a parent are not all the nodes there are, because the root has none.
theorem rows_fit_of_parents (root : Option Handle) (up : Handle → Option Handle)
    (kids : Handle → List Handle) (tree : Forest.IsTree root up kids) (rows : List Handle)
    (hnd : rows.Nodup) (hup : ∀ x ∈ rows, up x ≠ none) : rows.length < Text.wordBound := by
  by_cases hnil : rows = []
  · rw [hnil]
    decide
  · rcases List.exists_mem_of_ne_nil rows hnil with ⟨x, hx⟩
    rcases Option.ne_none_iff_exists'.mp (hup x hx) with ⟨p, hp⟩
    rcases tree.rooted x p hp with ⟨r, hr, _⟩
    exact Handle.length_lt_of_nodup rows r hnd fun hmem => hup r hmem (tree.root_up r hr)

/-- The rows that a course announces fit a machine word, those that go and those
    that come. -/
theorem Course.rows_fit (hs : s.Sound) (h : Course live s trace t) :
    (trace.flatMap Notice.removed).length < Text.wordBound ∧
      (trace.flatMap Notice.inserted).length < Text.wordBound := by
  have hdeparts := h.departs live hlive s t trace
  constructor
  · refine rows_fit_of_parents _ _ _ hs.tree _ hdeparts.nodup fun x hx => ?_
    rcases List.mem_flatMap.mp hx with ⟨n, hn, hxn⟩
    exact (hdeparts.row n hn x hxn).2.1
  · exact rows_fit_of_parents _ _ _ hlive.tree _
      ((h.spares live hlive s t trace).nodup_rows live s t trace)
      (h.inserted_live live s t trace)

end Courses

end Pass

end TreeWatch
