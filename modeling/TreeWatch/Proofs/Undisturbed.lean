import TreeWatch.Proofs.Sparing

/-!
# What a Consumer Can Keep

What it means for a consumer that a pass spares what is in place. A node whose
path from the root is the same before the pass and after it is never taken away
in between, so whatever the consumer has attached to its row, a selection or an
expansion, is still there. And no node is moved about: what comes in stays, so
a consumer that builds up state for a new row does not lose it to the same pass.

A consumer is modelled as a copy of the grid with marks on its nodes
(`Bookmarks`). It knows nothing of passes. It drops the marks that its copy has
no row for, and all of them when the model is replaced.

## Main definitions

* `Pass.SamePath`: A node has the same path in the record and in the snapshot.
* `Bookmarks`: A consumer with marks on the nodes of its copy.

## Theorems

* `Bookmarks.kept`: A mark is kept while announcements leave its node alone.
* `Pass.run_undisturbed`: A node with the same path is left alone by a pass.
* `Pass.run_settles`: What a pass inserts it never removes again.
-/

namespace TreeWatch

open Forest (Under)

namespace Pass

/-- The node is the root of both, or it has the same parent in both and that
    parent has the same path. -/
inductive SamePath (s : Store) (live : Snapshot) : Handle → Prop
  | root (h : Handle) (hs : s.root = some h) (hlive : live.root = some h) : SamePath s live h
  | child (h p : Handle) (hs : s.parent h = some p) (hlive : live.parent h = some p)
      (path : SamePath s live p) : SamePath s live h

/-- A node with the same path is in place, and the roots are the same. -/
theorem SamePath.placed (s : Store) (hs : s.Sound) (live : Snapshot) (hlive : live.Proper)
    (h : Handle) (hh : SamePath s live h) :
    Placed live s h ∧ s.contains h = true ∧ s.root = live.root := by
  induction hh with
  | root h hr hlr =>
      refine ⟨fun a ha => ?_, (s.contains_iff h).mpr (Or.inl hr), hr.trans hlr.symm⟩
      rw [Forest.eq_of_under_top (hlive.tree.root_up h hlr) ha, hlive.tree.root_up h hlr]
      exact hs.tree.root_up h hr
  | child h p hp hlp _ ih =>
      exact ⟨Placed.child live s h p ih.1 hlp hp, (s.contains_iff h).mpr (Or.inr ⟨p, hp⟩), ih.2.2⟩

end Pass

/-- A consumer that has marks on nodes of its copy, such as those that are
    selected or expanded. A mark is lost when the node goes away with announced
    rows, and all are lost when the model is replaced. -/
structure Bookmarks where
  copy : Replica
  marks : List Handle

namespace Bookmarks

def apply (b : Bookmarks) (n : Notice) : Bookmarks :=
  let copy := b.copy.apply n.event n.store
  let marks := match n.event with
    | .modelReset => []
    | _ => b.marks.filter copy.childLists.contains
  ⟨copy, marks⟩

def observe (b : Bookmarks) (trace : List Notice) : Bookmarks := trace.foldl apply b

/-- A mark is kept on a node that every announcement leaves alone. -/
theorem kept (b : Bookmarks) (trace : List Notice) (h : Handle) (p : Option Handle)
    (hfollows : b.copy.Follows trace) (hleaves : ∀ n ∈ trace, n.Leaves h p) (hh : h ∈ b.marks) :
    h ∈ (b.observe trace).marks := by
  induction trace generalizing b with
  | nil => exact hh
  | cons n trace ih =>
      have hn := hleaves n List.mem_cons_self
      refine ih (b.apply n) hfollows.2.2 (fun m hm => hleaves m (List.mem_cons_of_mem n hm)) ?_
      have hlists := ((Replica.matchesGrid_iff _ n.store).mp hfollows.2.1).2
      have hmem : h ∈ b.marks.filter (b.copy.apply n.event n.store).childLists.contains := by
        rw [List.mem_filter, hlists]
        exact ⟨hh, hn.shown⟩
      unfold apply
      split
      · exact absurd ‹_› hn.edited
      · exact hmem

end Bookmarks

namespace Pass

/-- A node with the same path in the record and in the snapshot is left alone by a
    pass. It stays tracked under its parent at every announcement, no rows with it
    or with nodes above it go away, none come, and it occurs in no insertion of
    the script. So a consumer keeps its marks on it. -/
theorem run_undisturbed (s : Store) (hs : s.check = none) (live : Snapshot) (hlive : live.Built)
    (isStrict : Bool) (h : Handle) (hh : SamePath s live h) :
    ∃ s', run isStrict live { store := s } = .ok s' ∧
      s'.report.script = s'.trace.filterMap Notice.edit ∧
      (∀ n ∈ s'.trace, n.store.contains h = true ∧ n.store.parent h = s.parent h ∧
        ¬ n.Takes h ∧ ¬ n.Gives h) ∧
      (∀ e ∈ s'.report.script, h ∉ e.inserted) ∧
      ∀ b : Bookmarks, b.copy.matchesGrid s = true → h ∈ b.marks →
        h ∈ (b.observe s'.trace).marks := by
  have hproper := hlive.proper live
  have hsound := s.check_eq_none_iff_sound.mp hs
  rcases hh.placed s hsound live hproper h with ⟨hp, ht, hroot⟩
  rcases run_spares live hproper s hsound hroot with ⟨s', hrun, hspares, hscript, htells⟩
  have hleaves := hspares.leaves h hp ht
  refine ⟨s', hrun isStrict, hscript, fun n hn => ?_, fun e he hin => ?_, fun b hb hmark => ?_⟩
  · have hn' := hleaves n hn
    exact ⟨hn'.tracked, hn'.parent.trans (hp h (Under.refl h)).symm, hn'.takes, hn'.gives⟩
  · rw [hscript, List.mem_filterMap] at he
    rcases he with ⟨n, hn, hedit⟩
    exact (hleaves n hn).gives ⟨h, n.inserted_of_edit e hedit ▸ hin, Under.refl h⟩
  · exact b.kept s'.trace h _ (htells b.copy hb).1 hleaves hmark

-- The second node has the same path, while the third one moves up beside it.
theorem run_undisturbed_beside :
    threeInARow.check = none ∧
      SamePath threeInARow (.ofEdges ⟨1⟩ [(⟨1⟩, ⟨2⟩), (⟨1⟩, ⟨3⟩)]) ⟨2⟩ ∧
      ∃ s', run true (.ofEdges ⟨1⟩ [(⟨1⟩, ⟨2⟩), (⟨1⟩, ⟨3⟩)]) { store := threeInARow } = .ok s' ∧
        s'.report.script = s'.trace.filterMap Notice.edit ∧
        (∀ n ∈ s'.trace, n.store.contains ⟨2⟩ = true ∧
          n.store.parent ⟨2⟩ = threeInARow.parent ⟨2⟩ ∧ ¬ n.Takes ⟨2⟩ ∧ ¬ n.Gives ⟨2⟩) ∧
        (∀ e ∈ s'.report.script, ⟨2⟩ ∉ e.inserted) ∧
        ∀ b : Bookmarks, b.copy.matchesGrid threeInARow = true → ⟨2⟩ ∈ b.marks →
          ⟨2⟩ ∈ (b.observe s'.trace).marks := by
  have hpath : SamePath threeInARow (.ofEdges ⟨1⟩ [(⟨1⟩, ⟨2⟩), (⟨1⟩, ⟨3⟩)]) ⟨2⟩ :=
    .child ⟨2⟩ ⟨1⟩ (by decide +kernel) (by decide +kernel)
      (.root ⟨1⟩ (by decide +kernel) (by decide +kernel))
  exact ⟨by decide +kernel, hpath,
    run_undisturbed threeInARow (by decide +kernel) _ (.ofEdges ⟨1⟩ _) true ⟨2⟩ hpath⟩

-- What holds of an entry and of each later one holds of the entries in pairs.
theorem pairwise_of_split {α : Type} (R : α → α → Prop) (xs : List α)
    (h : ∀ before a after, xs = before ++ a :: after → ∀ b ∈ after, R a b) : xs.Pairwise R := by
  induction xs with
  | nil => exact List.Pairwise.nil
  | cons x xs ih =>
      refine List.pairwise_cons.mpr ⟨h [] x xs rfl, ih fun before a after hsplit => ?_⟩
      exact h (x :: before) a after (congrArg (x :: ·) hsplit)

/-- Nodes come in with their rows once. -/
theorem Spares.nodup_rows (live : Snapshot) (s t : Store) (trace : List Notice)
    (h : Spares live s trace t) : (trace.flatMap Notice.inserted).Nodup := by
  refine List.nodup_flatMap.mpr ⟨fun n hn => ?_, ?_⟩
  · rcases List.append_of_mem hn with ⟨before, after, hsplit⟩
    exact (h.inserted before n after hsplit).1
  · refine pairwise_of_split _ trace fun before n after hsplit m hm x hx hx' => ?_
    -- The later announcement leaves the node alone.
    have henters := (h.inserted before n after hsplit).2 x hx
    have hleaves := (h.settles before n after hsplit x henters).2.1 m hm
    exact hleaves.gives ⟨x, hx', Under.refl x⟩

-- What the edits of a trace put in are rows that came with it.
theorem inserted_sublist (trace : List Notice) :
    ((trace.filterMap Notice.edit).flatMap Edit.inserted).Sublist
      (trace.flatMap Notice.inserted) := by
  induction trace with
  | nil => exact List.Sublist.refl []
  | cons n trace ih =>
      rw [List.flatMap_cons, List.filterMap_cons]
      cases he : n.edit with
      | none => exact ih.trans (List.sublist_append_right n.inserted _)
      | some e =>
          rw [List.flatMap_cons, n.inserted_of_edit e he]
          exact ih.append_left n.inserted

/-- Inserted nodes are inserted once. -/
theorem Spares.nodup_inserted (live : Snapshot) (s t : Store) (trace : List Notice)
    (h : Spares live s trace t) :
    ((trace.filterMap Notice.edit).flatMap Edit.inserted).Nodup :=
  (h.nodup_rows live s t trace).sublist (inserted_sublist trace)

/-- What a pass inserts it never removes again, and what it inserts had been
    removed if it was tracked. -/
theorem run_settles (s : Store) (hs : s.check = none) (live : Snapshot) (hlive : live.Built)
    (hroot : s.root = live.root) (isStrict : Bool) :
    ∃ s', run isStrict live { store := s } = .ok s' ∧
      s'.report.script = s'.trace.filterMap Notice.edit ∧
      (s'.report.script.flatMap Edit.inserted).Nodup ∧
      ∀ before n after, s'.trace = before ++ n :: after →
        (∀ h ∈ n.inserted, Enters s before n h) ∧
        ∀ h, Enters s before n h →
          (∀ m ∈ after, ¬ m.Takes h ∧ ¬ m.Gives h) ∧
            (s.contains h = true → ∃ m ∈ before, m.Removes h) := by
  have hproper := hlive.proper live
  have hsound := s.check_eq_none_iff_sound.mp hs
  rcases run_spares live hproper s hsound hroot with ⟨s', hrun, hspares, hscript, _⟩
  refine ⟨s', hrun isStrict, hscript, hscript ▸ hspares.nodup_inserted live s s'.store s'.trace,
    fun before n after hsplit => ⟨(hspares.inserted before n after hsplit).2, fun h hh => ?_⟩⟩
  rcases hspares.settles before n after hsplit h hh with ⟨_, hleaves, htaken⟩
  exact ⟨fun m hm => ⟨(hleaves m hm).takes, (hleaves m hm).gives⟩, htaken⟩

-- The last two nodes change places, and a new one comes below them.
theorem run_settles_of_swapped :
    threeInARow.check = none ∧
      threeInARow.root = (Snapshot.ofEdges ⟨1⟩ [(⟨1⟩, ⟨3⟩), (⟨3⟩, ⟨2⟩), (⟨2⟩, ⟨4⟩)]).root ∧
      ∃ s', run true (.ofEdges ⟨1⟩ [(⟨1⟩, ⟨3⟩), (⟨3⟩, ⟨2⟩), (⟨2⟩, ⟨4⟩)])
          { store := threeInARow } = .ok s' ∧
        s'.report.script = s'.trace.filterMap Notice.edit ∧
        (s'.report.script.flatMap Edit.inserted).Nodup ∧
        ∀ before n after, s'.trace = before ++ n :: after →
          (∀ h ∈ n.inserted, Enters threeInARow before n h) ∧
          ∀ h, Enters threeInARow before n h →
            (∀ m ∈ after, ¬ m.Takes h ∧ ¬ m.Gives h) ∧
              (threeInARow.contains h = true → ∃ m ∈ before, m.Removes h) :=
  ⟨by decide +kernel, by decide +kernel,
    run_settles threeInARow (by decide +kernel) _ (.ofEdges ⟨1⟩ _) (by decide +kernel) true⟩

end Pass

end TreeWatch
