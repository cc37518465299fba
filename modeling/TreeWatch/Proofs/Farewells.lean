import TreeWatch.Proofs.Mourners

/-!
# What a Pass Announces as Deleted

A consumer that keeps handles drops them when their deletion is announced. A full
pass takes out subtrees with dead and with live nodes in them. The live ones may
come back later in the same pass, and the root may change, in which case all nodes
go away at once. In every case each node that is gone for good is announced once,
no other node is, and the report has counted the announcements.

That the announced nodes are the right ones is known already, since passes mourn.
What is added here is the moment: a node is announced when it is not tracked any
more. This is filed along with the count whenever deletions are announced.

## Theorems

* `Pass.run_booked`: The report of a pass counts the deletions it announces.
* `Pass.run_farewells`: Each dead node is announced once, when it is gone.
-/

namespace TreeWatch

namespace Pass

/-- The report of a pass says what the pass announced. -/
theorem run_booked (live : Snapshot) (hlive : live.Proper) (s : Step) (hs : s.store.Sound)
    (isStrict : Bool) (s' : Step) (hrun : run isStrict live s = .ok s') :
    ∃ trace, s'.trace = s.trace ++ trace ∧ Booked s.report trace s'.report := by
  by_cases hroot : s.store.root = live.root
  · rcases run_works live hlive s hs hroot with ⟨s'', hrun', hworks, _⟩
    rw [hrun' isStrict, Except.ok.injEq] at hrun
    subst hrun
    rcases hworks.course with ⟨trace, htrace, _, hbooked⟩
    exact ⟨trace, htrace, hbooked⟩
  · rcases run_replaced live s hroot with ⟨s'', gone, hrun', htrace, hbooked⟩
    rw [hrun' isStrict, Except.ok.injEq] at hrun
    subst hrun
    exact ⟨_, htrace, hbooked⟩

/-- A pass announces the deletion of each node that was tracked and is not in the
    snapshot, once and when the node is not tracked any more. It announces no
    other deletion, and the report says how many there were. -/
theorem run_farewells (s : Store) (hs : s.check = none) (live : Snapshot) (hlive : live.Built)
    (isStrict : Bool) :
    ∃ s', run isStrict live { store := s } = .ok s' ∧
      (∀ h, deletions h s'.trace =
        if s.contains h = true ∧ live.contains h = false then 1 else 0) ∧
      (∀ n ∈ s'.trace, ∀ h, n.event = .nodeDeleted h → n.store.contains h = false) ∧
      s'.report.deleted = s'.trace.countP Notice.isDeletion := by
  have hproper := hlive.proper live
  have hsound := s.check_eq_none_iff_sound.mp hs
  rcases run_spec live hproper { store := s } hsound with ⟨s', hrun, hsound', hroot, hlinks, _⟩
  have hagrees := s'.store.agrees_of_links live hsound' hproper hroot hlinks
  have hmourns := (mourning_run live hproper isStrict { store := s } hsound).whole live.contains s
    id _ hsound s' (hrun isStrict)
  rcases run_booked live hproper { store := s } hsound isStrict s' (hrun isStrict) with
    ⟨trace, htrace, hbooked⟩
  rw [List.nil_append] at htrace
  subst htrace
  refine ⟨s', hrun isStrict, fun h => ?_, hbooked.gone, hbooked.deleted.trans (Nat.zero_add _)⟩
  rw [show s'.trace = (id s').trace from rfl, hmourns.once h, id_eq, hagrees.contains h]
  refine if_congr ?_ rfl rfl
  exact ⟨fun hh => ⟨hh.2.1, hh.2.2⟩, fun hh => ⟨hh.2, hh.1, hh.2⟩⟩

-- The second node is gone, and the third one, which was below it, comes back.
theorem run_farewells_of_survivor :
    threeInARow.check = none ∧
      ∃ s', run true (.ofEdges ⟨1⟩ [(⟨1⟩, ⟨3⟩)]) { store := threeInARow } = .ok s' ∧
        (∀ h, deletions h s'.trace =
          if threeInARow.contains h = true ∧
            (Snapshot.ofEdges ⟨1⟩ [(⟨1⟩, ⟨3⟩)]).contains h = false then 1 else 0) ∧
        (∀ n ∈ s'.trace, ∀ h, n.event = .nodeDeleted h → n.store.contains h = false) ∧
        s'.report.deleted = s'.trace.countP Notice.isDeletion :=
  ⟨by decide +kernel, run_farewells threeInARow (by decide +kernel) _ (.ofEdges ⟨1⟩ _) true⟩

end Pass

end TreeWatch
