import TreeWatch.Proofs.Narration

/-!
# Removals One After the Other

Removals need no snapshot and no source to be right. Over a sound record they
succeed, and one after the other they take out what the record at the start had
under any of their nodes, each row once. Evictions are made of them, and so are
notifications and repairs for the most part.

A stripping is a cut of which it is also known what it tells: a story of
removals, filed in the report, in which no announcement takes any other node.
Strippings compose like cuts do.

## Main definitions

* `Withdraws`: A trace takes rows away, and none but some nodes with them.
* `Step.Strips`: A stretch of a step that takes some nodes out and no others.

## Theorems

* `Step.strips_foldlM`: Removing nodes one after the other.
* `Step.strips_removeNode`, `Step.strips_evictTracked`,
  `Step.strips_removeTracked`: Removals of nodes wherever they are.
-/

namespace TreeWatch

open Forest (Under)

/-- A trace takes away rows of a record, each of them once, and with them no other
    nodes than those that are `gone`. -/
structure Withdraws (s : Store) (trace : List Notice) (gone : Handle → Prop) : Prop where
  takes : ∀ n ∈ trace, ∀ h, n.Takes h → gone h
  nodup : (trace.flatMap Notice.removed).Nodup
  parents : ∀ x ∈ trace.flatMap Notice.removed, s.parent x ≠ none

theorem Withdraws.gone_of_mem (s : Store) (trace : List Notice) (gone : Handle → Prop)
    (h : Withdraws s trace gone) (x : Handle) (hx : x ∈ trace.flatMap Notice.removed) : gone x := by
  rcases List.mem_flatMap.mp hx with ⟨n, hn, hxn⟩
  exact h.takes n hn x ⟨x, hxn, Under.refl x⟩

/-- What goes away later was not gone before. -/
theorem Withdraws.append (s t : Store) (before after : List Notice) (gone gone' : Handle → Prop)
    (hcut : s.Cuts t gone) (h : Withdraws s before gone) (h' : Withdraws t after gone') :
    Withdraws s (before ++ after) fun x => gone x ∨ gone' x := by
  have hlater : ∀ x ∈ after.flatMap Notice.removed, s.parent x ≠ none ∧ ¬ gone x := by
    intro x hx
    rcases Option.ne_none_iff_exists'.mp (h'.parents x hx) with ⟨p, hp⟩
    rcases hcut.links.up_of_up x p hp with ⟨hsp, hstay⟩
    exact ⟨hsp ▸ Option.some_ne_none p, hstay⟩
  refine ⟨fun n hn x hx => ?_, ?_, fun x hx => ?_⟩
  · rcases List.mem_append.mp hn with hn | hn
    · exact Or.inl (h.takes n hn x hx)
    · exact Or.inr (h'.takes n hn x hx)
  · rw [List.flatMap_append]
    refine List.nodup_append.mpr ⟨h.nodup, h'.nodup, fun x hx y hy => ?_⟩
    rintro rfl
    exact (hlater x hy).2 (h.gone_of_mem s before gone x hx)
  · rw [List.flatMap_append] at hx
    rcases List.mem_append.mp hx with hx | hx
    · exact h.parents x hx
    · exact (hlater x hx).1

/-- A trace without rows that go away takes nothing. -/
theorem Withdraws.of_nil (s : Store) (trace : List Notice)
    (h : trace.flatMap Notice.removed = []) : Withdraws s trace fun _ => False := by
  refine ⟨fun n hn x hx => ?_, h ▸ List.nodup_nil, fun x hx => absurd (h ▸ hx) List.not_mem_nil⟩
  rcases hx with ⟨v, hv, _⟩
  exact List.not_mem_nil (h ▸ List.mem_flatMap.mpr ⟨n, hn, hv⟩)

namespace Step

/-- Between two moments of a step the nodes that are `gone` were taken out, and
    this was told and filed. No rows came. -/
structure Strips (s s' : Step) (gone : Handle → Prop) : Prop where
  edits : Edits s s'
  cuts : s.store.Cuts s'.store gone
  told : ∃ trace script, s'.trace = s.trace ++ trace ∧ Booked s.report trace s'.report ∧
    Narrates s.store trace script 0 s'.store ∧ Withdraws s.store trace gone ∧
    trace.flatMap Notice.inserted = []

namespace Strips

variable {s s' s'' : Step} {gone gone' : Handle → Prop}

-- No announcement took any other node.
theorem takes (h : Strips s s' gone) :
    ∃ trace, s'.trace = s.trace ++ trace ∧ ∀ n ∈ trace, ∀ x, n.Takes x → gone x := by
  rcases h.told with ⟨trace, _, htrace, _, _, hwithdraws, _⟩
  exact ⟨trace, htrace, hwithdraws.takes⟩

theorem refl (s : Step) (hs : s.store.Sound) : Strips s s fun _ => False :=
  ⟨.refl s hs, .refl s.store hs, [], [], (List.append_nil s.trace).symm, .nil s.report,
    .nil s.store, .of_nil s.store [] rfl, rfl⟩

theorem trans (h : Strips s s' gone) (h' : Strips s' s'' gone') :
    Strips s s'' fun x => gone x ∨ gone' x := by
  rcases h.told with ⟨before, script, hbefore, hbooked, hstory, hwithdraws, hnone⟩
  rcases h'.told with ⟨after, script', hafter, hbooked', hstory', hwithdraws', hnone'⟩
  refine ⟨h.edits.trans _ _ _ h'.edits, h.cuts.trans h'.cuts, before ++ after, script ++ script',
    ?_, hbooked.append _ _ _ _ _ hbooked', hstory.append hstory',
    hwithdraws.append _ _ _ _ _ _ h.cuts hwithdraws', ?_⟩
  · rw [hafter, hbefore, List.append_assoc]
  · rw [List.flatMap_append, hnone, hnone', List.append_nil]

theorem congr_gone (h : Strips s s' gone) (hg : ∀ x, gone' x ↔ gone x) : Strips s s' gone' := by
  rcases h.told with ⟨trace, script, htrace, hbooked, hstory, hwithdraws, hnone⟩
  exact ⟨h.edits, h.cuts.congr_gone hg, trace, script, htrace, hbooked, hstory,
    ⟨fun n hn x hx => (hg x).mpr (hwithdraws.takes n hn x hx), hwithdraws.nodup,
      hwithdraws.parents⟩, hnone⟩

-- Relocations are counted beside the removals.
theorem relocated (h : Strips s s' gone) (n : Nat) :
    Strips s { s' with report := { s'.report with relocated := n } } gone := by
  rcases h.told with ⟨trace, script, htrace, hbooked, hstory⟩
  exact ⟨h.edits.trans _ _ _ (.of_eq _ _ h.edits.sound rfl rfl rfl rfl), h.cuts, trace, script,
    htrace, hbooked.relocated _ _ _ n, hstory⟩

end Strips

section Removals

variable (isAlive : Handle → Bool) (s : Step) (hs : s.store.Sound)

include hs

/-- A removal of rows takes the rows and what is below them. -/
theorem strips_removeRows (parent : Handle) (front rows back : List Handle)
    (hp : s.store.contains parent = true) (hne : rows ≠ [])
    (hkids : s.store.children parent = front ++ rows ++ back) :
    ∃ s', s.removeRows isAlive parent front.length (front.length + rows.length - 1) = .ok s' ∧
      Strips s s' fun x => ∃ v ∈ rows, Under s.store.parent x v := by
  rcases Pass.removeRows_told isAlive s hs parent front rows back hp hne hkids with
    ⟨s', i, gone, rfl, hrun, hedits, hcut, htrace, hbooked, _⟩
  have hpos : 0 < rows.length := List.length_pos_iff.mpr hne
  have hrows := s.store.rowsAt_eq i front rows back hkids hne
  rcases quiet_farewell gone s'.store with ⟨hremoved, hinserted, _⟩
  have hall : (removal i front.length (front.length + rows.length - 1) s.store s'.store ++
      farewell gone s'.store).flatMap Notice.removed = rows := by
    rw [List.flatMap_append, Pass.removed_removal, hremoved, List.append_nil, hrows]
  have hstory := Narrates.removal s.store s'.store s'.store i front.length _ gone [] [] 0
    (by omega) (Pass.length_rowsAt s.store i front rows back hkids hne) (.nil s'.store)
  rw [List.append_nil] at hstory
  have hnd := hs.tree.nodup i.node
  rw [hkids] at hnd
  refine ⟨s', hrun, hedits, hcut, _, _, htrace, hbooked, hstory,
    ⟨fun n hn x hx => ?_, ?_, fun x hx => ?_⟩, ?_⟩
  · rcases hx with ⟨v, hv, hu⟩
    have hvr : v ∈ rows := hall ▸ List.mem_flatMap.mpr ⟨n, hn, hv⟩
    -- Only the first announcement takes anything.
    have hstore := Pass.shown_removal i _ _ s.store s'.store _ hremoved n hn (List.ne_nil_of_mem hv)
    exact ⟨v, hvr, hstore ▸ hu⟩
  · rw [hall]
    exact List.Nodup.of_append_right (List.Nodup.of_append_left hnd)
  · rw [hall] at hx
    have hxp : s.store.parent x = some i.node := by
      rw [← hs.tree.mem_kids, hkids]
      exact List.mem_append_left back (List.mem_append_right front hx)
    exact hxp ▸ Option.some_ne_none i.node
  · rw [List.flatMap_append, Pass.inserted_removal, hinserted, List.append_nil]

/-- A removal of a node takes the node and what is below it. -/
theorem strips_removeNode (h p : Handle) (hp : s.store.parent h = some p) :
    ∃ s', s.removeNode isAlive h = .ok (true, s') ∧ Strips s s' (Under s.store.parent · h) := by
  rcases hs.rowOf?_of_parent s.store h p hp with ⟨front, back, hkids, hrow⟩
  have hpt := (s.store.contains_iff_held p).mpr (hs.tree.held_up h p hp)
  rcases s.strips_removeRows isAlive hs p front [h] back hpt (List.cons_ne_nil h []) hkids with
    ⟨s', hrun, hstrips⟩
  refine ⟨s', ?_, hstrips.congr_gone fun x => ?_⟩
  · rw [List.length_singleton, Nat.add_sub_cancel] at hrun
    simp only [removeNode, hp, hrow, hrun, bind, Except.bind, pure, Except.pure]
  · simp only [List.mem_singleton, exists_eq_left]

end Removals

/-- Removing nodes one after the other, and passing over those that have no
    recorded parent, takes what was recorded under any of them. -/
theorem strips_foldlM {α : Type} (out : α → Step) (f : α → Handle → Except Fault α)
    (hskip : ∀ a h, (out a).store.parent h = none → ∃ a', f a h = .ok a' ∧ out a' = out a)
    (hdrop : ∀ a h p, (out a).store.Sound → (out a).store.parent h = some p →
      ∃ a', f a h = .ok a' ∧ Strips (out a) (out a') (Under (out a).store.parent · h))
    (nodes : List Handle) (a : α) (ha : (out a).store.Sound) :
    ∃ a', nodes.foldlM f a = .ok a' ∧ Strips (out a) (out a') (Evicted (out a).store nodes) := by
  induction nodes generalizing a with
  | nil =>
      refine ⟨a, rfl, (Strips.refl (out a) ha).congr_gone fun x => ?_⟩
      simp only [Evicted, List.not_mem_nil, false_and, exists_false]
  | cons h nodes ih =>
      rw [List.foldlM_cons]
      cases hp : (out a).store.parent h with
      | none =>
          rcases hskip a h hp with ⟨b, hb, hout⟩
          rcases ih b (hout ▸ ha) with ⟨a', hrun, hstrips⟩
          rw [hout] at hstrips
          refine ⟨a', ?_, hstrips.congr_gone (evicted_cons_none (out a).store h nodes hp)⟩
          rw [hb]
          exact hrun
      | some p =>
          rcases hdrop a h p ha hp with ⟨b, hb, hfirst⟩
          rcases ih b hfirst.edits.sound with ⟨a', hrun, hstrips⟩
          refine ⟨a', ?_, (hfirst.trans hstrips).congr_gone
            (evicted_cons_some _ _ h p nodes hp hfirst.cuts)⟩
          rw [hb]
          exact hrun

section Evictions

variable (isAlive : Handle → Bool) (s : Step) (hs : s.store.Sound)

include hs

/-- An eviction takes what is recorded under one of its nodes. -/
theorem strips_evictTracked (roots : List Handle) (fill : Snapshot) :
    ∃ flag s', s.evictTracked isAlive roots fill = .ok (flag, s') ∧
      Strips s s' (Evicted s.store (roots.flatMap fill.descendants)) := by
  have hskip : ∀ (a : Bool × Step) h, a.2.store.parent h = none →
      ∃ a', evictNode isAlive a h = .ok a' ∧ a'.2 = a.2 := fun a h hp =>
    ⟨a, evictNode_none isAlive a.1 a.2 h hp, rfl⟩
  have hdrop : ∀ (a : Bool × Step) h p, a.2.store.Sound → a.2.store.parent h = some p →
      ∃ a', evictNode isAlive a h = .ok a' ∧ Strips a.2 a'.2 (Under a.2.store.parent · h) := by
    intro a h p ha hp
    rcases a.2.strips_removeNode isAlive ha h p hp with ⟨s', hrun, hstrips⟩
    exact ⟨_, evictNode_some isAlive a.1 a.2 s' h p hp hrun,
      hstrips.relocated (s'.report.relocated + 1)⟩
  rcases strips_foldlM Prod.snd (evictNode isAlive) hskip hdrop (roots.flatMap fill.descendants)
    (false, s) hs with ⟨⟨flag, s'⟩, hrun, hstrips⟩
  exact ⟨flag, s', hrun, hstrips⟩

/-- Nodes that are tracked are removed one after the other. -/
theorem strips_removeTracked (nodes : List Handle) :
    ∃ s', nodes.foldlM (fun s c => do
        if s.store.contains c then return (← s.removeNode isAlive c).2 else return s) s = .ok s' ∧
      Strips s s' (Evicted s.store nodes) := by
  refine strips_foldlM id _ (fun a h hp => ⟨a, ?_, rfl⟩) (fun a h p ha hp => ?_) nodes s hs
  · -- The root is tracked and has no row to be removed from.
    dsimp only [id] at hp
    rw [a.removeNode_none isAlive h hp]
    split <;> rfl
  · rcases a.strips_removeNode isAlive ha h p hp with ⟨s', hrun, hstrips⟩
    refine ⟨s', ?_, hstrips⟩
    rw [if_pos ((a.store.contains_iff h).mpr (Or.inr ⟨p, hp⟩)), hrun]
    rfl

end Evictions

end Step

end TreeWatch
