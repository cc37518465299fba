import TreeWatch.Proofs.FullPass
import TreeWatch.Proofs.Removals

/-!
# The Repair of a Diverged Node

A pass compares what is recorded below a node with what is live there, and one
that is not strict repairs the difference. No pass over a sound record comes to
a difference, so nothing that is known about passes says what the repair does.
It has to be right for whatever the record holds.

The repair is a stripping and a planting. First everything that is in the way
goes: what is recorded below the node, and what is recorded under a node that
is live below it, wherever that is. None of the nodes that are live below the
node is tracked then, so all of them can be planted. The node itself may have
been recorded under one of them. In that case it is gone as well, and nothing
is planted.

## Main definitions

* `Pass.InTheWay`: What a repair takes out.
* `Store.AgreesBelow`: A record holds below a node what a snapshot shows.
* `Pass.Repaired`: What a repair does.

## Theorems

* `Pass.clear_the_way`: A repair first takes out what is in the way.
* `Pass.settle_repairs`: A comparison that is not strict succeeds and repairs.
-/

namespace TreeWatch

open Forest (Under under_iff_up)

namespace Store

/-- The record holds below a node exactly what a snapshot shows there. -/
structure AgreesBelow (s : Store) (t : Snapshot) (node : Handle) : Prop where
  under : ∀ x, Under s.parent x node ↔ Under t.parent x node
  children : ∀ x, Under t.parent x node → s.children x = t.children x

-- Equal child lists lead to the same nodes.
theorem agreesBelow_of_children (s : Store) (t : Snapshot) (hs : s.Sound) (ht : t.Proper)
    (node : Handle) (hkids : ∀ x, Under t.parent x node → s.children x = t.children x) :
    s.AgreesBelow t node := by
  have hlink : ∀ c p, Under t.parent p node → (s.parent c = some p ↔ t.parent c = some p) := by
    intro c p hp
    rw [← hs.tree.mem_kids, hkids p hp, ht.tree.mem_kids]
  refine ⟨fun x => ⟨fun hu => ?_, fun hu => ?_⟩, hkids⟩
  · induction hu using Relation.ReflTransGen.head_induction_on with
    | refl => exact Under.refl node
    | @head c p hc _ ih => exact (Under.of_up ((hlink c p ih).mp hc)).trans ih
  · induction hu using Relation.ReflTransGen.head_induction_on with
    | refl => exact Under.refl node
    | @head c p hc hp ih => exact (Under.of_up ((hlink c p hp).mpr hc)).trans ih

end Store

namespace Pass

open Step (Strips Evicted)

/-- What a repair of a node takes out: what is recorded below the node, and what
    is recorded under any node that is live below it. -/
def InTheWay (live : Snapshot) (s : Store) (node x : Handle) : Prop :=
  s.contains x = true ∧
    ((x ≠ node ∧ Under s.parent x node) ∨ ∃ d ∈ live.descendants node, Under s.parent x d)

/-- What a repair of a node does. The record stays sound, and a copy can follow.
    One condition is reported. Nothing is removed but what is in the way, and all
    else keeps its place. If the node is not in the way itself, it ends with what
    is live below it. Otherwise it is dropped. -/
structure Repaired (live : Snapshot) (node : Handle) (s s' : Step) : Prop where
  sound : s'.store.check = none
  told : ∃ trace, s'.trace = s.trace ++ trace ∧
    (∀ r : Replica, r.matchesGrid s.store = true → r.Follows trace ∧
      (r.observe trace).mismatches = r.mismatches ∧
      (r.observe trace).matchesGrid s'.store = true) ∧
    ∀ n ∈ trace, ∀ h, n.Takes h → InTheWay live s.store node h
  reported : s'.report.recovered = s.report.recovered ++
    [.inconsistentSnapshot node (live.children node).length (s.store.children node).length]
  spared : ∀ h, s.store.contains h = true → ¬ InTheWay live s.store node h →
    s'.store.contains h = true ∧ s'.store.parent h = s.store.parent h
  rederived : (∀ d ∈ live.descendants node, ¬ Under s.store.parent node d) →
    s'.store.contains node = true ∧ s'.store.parent node = s.store.parent node ∧
      s'.store.AgreesBelow live node
  dropped : (∃ d ∈ live.descendants node, Under s.store.parent node d) →
    s'.store.contains node = false

section Repair

variable (live : Snapshot) (hlive : live.Proper) (node : Handle) (s : Step)
  (hs : s.store.Sound)

section Descendants

include hlive

-- What is live below a node are its children and what is below them.
theorem mem_descendants_iff_kids (x : Handle) : x ∈ live.descendants node ↔
    x ∈ live.children node ∨ x ∈ (live.children node).flatMap live.descendants := by
  rw [hlive.mem_descendants, List.mem_flatMap]
  simp only [← hlive.tree.mem_kids]
  constructor
  · rintro ⟨c, hc, hu⟩
    by_cases hxc : x = c
    · exact Or.inl (hxc ▸ hc)
    · exact Or.inr ⟨c, hc, (hlive.mem_descendants_iff_ne live c x).mpr ⟨hxc, hu⟩⟩
  · rintro (hx | ⟨c, hc, hx⟩)
    · exact ⟨x, hx, Under.refl x⟩
    · exact ⟨c, hc, ((hlive.mem_descendants_iff_ne live c x).mp hx).2⟩

end Descendants

include hs

-- A node is recorded below another one exactly if it is under one of its rows.
theorem under_row_iff (x : Handle) : (∃ v ∈ s.store.children node, Under s.store.parent x v) ↔
    x ≠ node ∧ Under s.store.parent x node := by
  constructor
  · rintro ⟨v, hv, hu⟩
    have hvp := (hs.tree.mem_kids node v).mp hv
    refine ⟨?_, hu.trans (Under.of_up hvp)⟩
    rintro rfl
    exact hs.tree.acyclic v x hvp hu
  · rintro ⟨hne, hu⟩
    rcases (Forest.under_iff_down x node).mp hu with he | ⟨v, hxv, hv⟩
    · exact absurd he hne
    · exact ⟨v, (hs.tree.mem_kids node v).mpr hv, hxv⟩

variable (hroot : s.store.root = live.root)

include hlive hroot

-- The root is live below no node, so whatever is tracked there has a parent.
theorem evicted_iff_tracked (x : Handle) : Evicted s.store (live.descendants node) x ↔
    s.store.contains x = true ∧ ∃ d ∈ live.descendants node, Under s.store.parent x d := by
  constructor
  · rintro ⟨d, hd, hp, hu⟩
    have hheld := Forest.held_of_above s.store.root s.store.parent x d hu
      (Or.inr (Option.ne_none_iff_exists'.mp hp))
    exact ⟨(s.store.contains_iff_held x).mpr hheld, d, hd, hu⟩
  · rintro ⟨hx, d, hd, hu⟩
    refine ⟨d, hd, fun hp => ?_, hu⟩
    rcases hs.tree.held_of_under x d ((s.store.contains_iff_held x).mp hx) hu with hr | ⟨p, hdp⟩
    · rcases (hlive.mem_descendants live node d).mp hd with ⟨c, hc, huc⟩
      rw [hroot] at hr
      rw [Forest.eq_of_under_top (hlive.tree.root_up d hr) huc] at hc
      exact hlive.tree.root_ne d node hc hr
    · rw [hp] at hdp
      exact Option.some_ne_none p hdp.symm

-- What is in the way is below the node or would be evicted.
theorem inTheWay_iff (hn : s.store.contains node = true) (x : Handle) :
    InTheWay live s.store node x ↔
      (∃ v ∈ s.store.children node, Under s.store.parent x v) ∨
        Evicted s.store (live.descendants node) x := by
  rw [evicted_iff_tracked live hlive node s hs hroot, under_row_iff node s hs]
  constructor
  · rintro ⟨hx, hbelow | hlater⟩
    · exact Or.inl hbelow
    · exact Or.inr ⟨hx, hlater⟩
  · rintro (hbelow | ⟨hx, hlater⟩)
    · have hheld := Forest.held_of_above s.store.root s.store.parent x node hbelow.2
        ((s.store.contains_iff_held node).mp hn)
      exact ⟨(s.store.contains_iff_held x).mpr hheld, Or.inl hbelow⟩
    · exact ⟨hx, Or.inr hlater⟩

/-- The repair first takes out what is in the way, and nothing else. -/
theorem clear_the_way (hn : s.store.contains node = true) :
    ∃ s₁ s₂ flag s₃,
      (if (s.store.children node).isEmpty then .ok s
        else s.removeRows live.contains node 0 ((s.store.children node).length - 1)) = .ok s₁ ∧
      (live.children node).foldlM (fun s c => do
        if s.store.contains c then return (← s.removeNode live.contains c).2 else return s) s₁ =
          .ok s₂ ∧
      s₂.evictTracked live.contains (live.children node) live = .ok (flag, s₃) ∧
      Strips s s₃ (InTheWay live s.store node) := by
  have hrows : ∃ s₁, (if (s.store.children node).isEmpty then .ok s
        else s.removeRows live.contains node 0 ((s.store.children node).length - 1)) = .ok s₁ ∧
      Strips s s₁ fun x => ∃ v ∈ s.store.children node, Under s.store.parent x v := by
    by_cases hempty : (s.store.children node).isEmpty = true
    · rw [if_pos hempty]
      refine ⟨s, rfl, (Strips.refl s hs).congr_gone fun x => ?_⟩
      simp only [List.isEmpty_iff.mp hempty, List.not_mem_nil, false_and, exists_false]
    · rw [if_neg hempty]
      have hall := s.strips_removeRows live.contains hs node [] (s.store.children node) [] hn
        (mt List.isEmpty_iff.mpr hempty) (List.append_nil _).symm
      rwa [List.length_nil, Nat.zero_add] at hall
  rcases hrows with ⟨s₁, hrun₁, hstrips₁⟩
  rcases s₁.strips_removeTracked live.contains hstrips₁.edits.sound (live.children node) with
    ⟨s₂, hrun₂, hstrips₂⟩
  rcases s₂.strips_evictTracked live.contains hstrips₂.edits.sound (live.children node) live with
    ⟨flag, s₃, hrun₃, hstrips₃⟩
  refine ⟨s₁, s₂, flag, s₃, hrun₁, hrun₂, hrun₃,
    ((hstrips₁.trans hstrips₂).trans hstrips₃).congr_gone fun x => ?_⟩
  -- What the later parts take is what the record at the start had there.
  have hboth : Evicted s.store (live.descendants node) x ↔
      Evicted s.store (live.children node) x ∨
        Evicted s.store ((live.children node).flatMap live.descendants) x := by
    simp only [Evicted, mem_descendants_iff_kids live hlive node, or_and_right, exists_or]
  have hkids := Step.evicted_of_cut s.store s₁.store _ hstrips₁.cuts (live.children node) x
  have hrest := Step.evicted_of_cut s.store s₂.store _ (hstrips₁.cuts.trans hstrips₂.cuts)
    ((live.children node).flatMap live.descendants) x
  rw [inTheWay_iff live hlive node s hs hroot hn, hboth, ← hrest, ← hkids, or_assoc]

/-- Nothing that is live below the node is tracked after that, and the node has
    no recorded child. -/
theorem cleared (hn : s.store.contains node = true) (t : Store)
    (hcut : s.store.Cuts t (InTheWay live s.store node)) :
    t.children node = [] ∧ ∀ d ∈ live.descendants node, t.contains d = false := by
  constructor
  · refine List.eq_nil_iff_forall_not_mem.mpr fun c hc => ?_
    rcases (hcut.mem_children_iff hs node c).mp hc with ⟨hsc, hstay⟩
    exact hstay ((inTheWay_iff live hlive node s hs hroot hn c).mpr
      (Or.inl ⟨c, hsc, Under.refl c⟩))
  · intro d hd
    rw [← Bool.not_eq_true]
    intro htd
    rcases (hcut.contains_iff d).mp htd with ⟨hsd, hstay⟩
    exact hstay ⟨hsd, Or.inr ⟨d, hd, Under.refl d⟩⟩

end Repair

section Replanting

variable (live : Snapshot) (hlive : live.Proper) (node : Handle) (s : Step)
  (hs : s.store.Sound) (hkids : s.store.children node = [])
  (hnew : ∀ d ∈ live.descendants node, s.store.contains d = false)

include hlive hs hkids hnew

/-- Once all that is live below a node was planted there, the record shows what
    the snapshot shows. -/
theorem agreesBelow_of_planted (t : Store)
    (hpl : s.store.Planted live node (live.children node) t) : t.AgreesBelow live node := by
  have hkid : ∀ b ∈ live.children node, live.parent b = some node := fun b hb =>
    (hlive.tree.mem_kids node b).mp hb
  have htop : ∀ b ∈ live.children node, s.store.contains b = false := fun b hb =>
    hnew b ((mem_descendants_iff_kids live hlive node b).mpr (Or.inl hb))
  have hbelow : ∀ v ∈ (live.children node).flatMap live.descendants,
      s.store.contains v = false := fun v hv =>
    hnew v ((mem_descendants_iff_kids live hlive node v).mpr (Or.inr hv))
  refine t.agreesBelow_of_children live hpl.sound hlive node fun x hx => ?_
  refine Handle.ascending_ext _ _ (hpl.sound.ascending x) (hlive.ascending x) fun c => ?_
  rw [hpl.sound.tree.mem_kids, hlive.tree.mem_kids]
  constructor
  · intro hc
    cases hsc : s.store.contains c with
    | false =>
        exact (under_of_planted live hlive node _ s.store t hpl htop hkid hbelow c x hsc hc).1
    | true =>
        -- An old link would lead to the node or to a new one.
        rw [hpl.old c hsc] at hc
        by_cases hxn : x = node
        · have hmem := (hs.tree.mem_kids x c).mpr hc
          rw [hxn, hkids] at hmem
          exact absurd hmem List.not_mem_nil
        · have hsx := (s.store.contains_iff_held x).mpr (hs.tree.held_up c x hc)
          rw [hnew x ((hlive.mem_descendants_iff_ne live node x).mpr ⟨hxn, hx⟩)] at hsx
          exact absurd hsx Bool.false_ne_true
  · intro hc
    have hcn : Under live.parent c node := (Under.of_up hc).trans hx
    have hne : c ≠ node := by
      rintro rfl
      exact hlive.tree.acyclic c x hc hx
    rcases (hlive.mem_descendants live node c).mp
      ((hlive.mem_descendants_iff_ne live node c).mpr ⟨hne, hcn⟩) with ⟨b, hb, hcb⟩
    rw [(link_of_planted live hlive node _ s.store t hpl htop hkid hbelow b c
      ((hlive.tree.mem_kids node b).mpr hb) hcb).2, hc]

/-- All that is live below a tracked node can be planted there. Nothing is taken
    by that. -/
theorem replant (hn : s.store.contains node = true) :
    ∃ s', s.insertRows node 0 (live.children node) live = .ok s' ∧ Step.Edits s s' ∧
      s.store.Planted live node (live.children node) s'.store ∧
      ∃ trace, s'.trace = s.trace ++ trace ∧ ∀ n ∈ trace, ∀ h, ¬ n.Takes h := by
  by_cases hempty : live.children node = []
  · -- Nothing is live below the node.
    refine ⟨s, ?_, .refl s hs, ?_, [], (List.append_nil s.trace).symm,
      fun _ hn => absurd hn List.not_mem_nil⟩
    · rw [hempty]
      rfl
    · rw [hempty]
      refine ⟨hs, rfl, fun x => ?_, fun _ _ => rfl, fun x hx => ?_, fun a ha => ?_⟩
      · simp only [List.not_mem_nil, false_and, exists_false, or_false]
      · exact absurd hx List.not_mem_nil
      · exact absurd ha List.not_mem_nil
  · have hapart : ∀ a ∈ live.children node, ∀ b ∈ live.children node, b ∉ live.descendants a := by
      intro a ha b hb hmem
      rcases (hlive.mem_descendants_iff_ne live a b).mp hmem with ⟨hab, hu⟩
      exact hlive.tree.sibling_not_under node b a hb ha hab hu
    have hclear : s.store.Clear (live.children node) live := by
      intro b hb v hv hc
      rw [hnew v ((mem_descendants_iff_kids live hlive node v).mpr
        (Or.inr (List.mem_flatMap.mpr ⟨b, hb, hv⟩)))] at hc
      exact absurd hc Bool.false_ne_true
    have hasc : Handle.Ascending ([] ++ live.children node ++ []) := by
      rw [List.nil_append, List.append_nil]
      exact hlive.ascending node
    rcases s.insertRows_spec hs node [] (live.children node) [] live hlive hn hempty hkids hasc
      (fun b hb => hnew b ((mem_descendants_iff_kids live hlive node b).mpr (Or.inl hb))) hapart
      hclear with ⟨s', hrun, hedits, hpl⟩
    refine ⟨s', hrun, hedits, hpl, ?_⟩
    rcases s.insertRows_cases node 0 (live.children node) live s' hrun with
      rfl | ⟨under, last, _, htrace, _⟩
    · exact ⟨[], (List.append_nil s'.trace).symm, fun _ hn => absurd hn List.not_mem_nil⟩
    · rw [List.append_assoc] at htrace
      refine ⟨_, htrace, fun n hn h hx => ?_⟩
      rcases hx with ⟨v, hv, _⟩
      rcases List.mem_pair.mp hn with rfl | rfl <;> exact List.not_mem_nil hv

end Replanting

section Settling

variable (live : Snapshot) (hlive : live.Proper) (node : Handle) (s : Step)
  (hs : s.store.Sound) (hroot : s.store.root = live.root) (hn : s.store.contains node = true)

include hlive hs hroot hn

/-- When nothing is in the way any more, the live children are planted if the node
    is still there, and the node is repaired. -/
theorem repaired_of_cleared (m : Step) (hstrips : Strips s m (InTheWay live s.store node)) :
    ∃ s', (if m.store.contains node then m.insertRows node 0 (live.children node) live
        else .ok m) = .ok s' ∧
      Repaired live node s (s'.recover (.inconsistentSnapshot node (live.children node).length
        (s.store.children node).length)) := by
  have hcut := hstrips.cuts
  rcases cleared live hlive node s hs hroot hn m.store hcut with ⟨hkids, hnew⟩
  have hplants : ∃ s', (if m.store.contains node then m.insertRows node 0 (live.children node) live
        else .ok m) = .ok s' ∧ Step.Edits m s' ∧
      (∃ trace, s'.trace = m.trace ++ trace ∧ ∀ n ∈ trace, ∀ h, ¬ n.Takes h) ∧
      (∀ x, m.store.contains x = true →
        s'.store.contains x = true ∧ s'.store.parent x = m.store.parent x) ∧
      (m.store.contains node = true → s'.store.AgreesBelow live node) ∧
      (m.store.contains node = false → s'.store.contains node = false) := by
    by_cases hmn : m.store.contains node = true
    · rw [if_pos hmn]
      rcases replant live hlive node m hcut.sound hkids hnew hmn with
        ⟨s', hrun, hedits, hpl, hquiet⟩
      refine ⟨s', hrun, hedits, hquiet, fun x hx => ⟨?_, hpl.old x hx⟩, fun _ => ?_, fun hf => ?_⟩
      · exact (hpl.contains_iff x).mpr (Or.inl hx)
      · exact agreesBelow_of_planted live hlive node m hcut.sound hkids hnew s'.store hpl
      · exact absurd (hmn.symm.trans hf) Bool.noConfusion
    · rw [if_neg hmn]
      exact ⟨m, rfl, .refl m hcut.sound, ⟨[], (List.append_nil m.trace).symm,
        fun _ hn => absurd hn List.not_mem_nil⟩, fun x hx => ⟨hx, rfl⟩, fun ht => absurd ht hmn,
        fun hf => hf⟩
  rcases hplants with ⟨s', hrun, hedits₂, ⟨after, hafter, hnone⟩, hkept, hagrees, hgone⟩
  refine ⟨s', hrun, ?_⟩
  have hedits := hstrips.edits.trans s m s' hedits₂
  rcases hedits.tells with ⟨trace, htrace, htells⟩
  rcases hstrips.takes with ⟨before, hbefore, htakes⟩
  have hparts : before ++ after = trace := by
    rw [hafter, hbefore, List.append_assoc] at htrace
    exact List.append_cancel_left htrace
  -- The node is in the way exactly if it is recorded under a node that is live below it.
  have hway : InTheWay live s.store node node ↔
      ∃ d ∈ live.descendants node, Under s.store.parent node d := by
    simp only [InTheWay, hn, ne_eq, not_true_eq_false, false_and, false_or, true_and]
  have hspared : ∀ h, s.store.contains h = true → ¬ InTheWay live s.store node h →
      m.store.contains h = true ∧ s'.store.contains h = true ∧
        s'.store.parent h = s.store.parent h := by
    intro h hh hstay
    have hmh := (hcut.contains_iff h).mpr ⟨hh, hstay⟩
    rcases hkept h hmh with ⟨hc, hp⟩
    exact ⟨hmh, hc, hp.trans (hcut.links.kept h hstay)⟩
  refine ⟨s'.store.check_eq_none_iff_sound.mpr hedits.sound, ⟨trace, htrace, fun r hr => ?_,
    fun n hnt h hh => ?_⟩, congrArg (· ++ [_]) hedits.recovered, fun h hh hstay => ?_,
    fun hfree => ?_, fun hunder => ?_⟩
  · rcases htells r hr with ⟨hfollows, hgrid⟩
    exact ⟨hfollows, hfollows.mismatches_eq r trace, hgrid⟩
  · rcases List.mem_append.mp (hparts ▸ hnt) with hb | ha
    · exact htakes n hb h hh
    · exact absurd hh (hnone n ha h)
  · exact (hspared h hh hstay).2
  · have hstay : ¬ InTheWay live s.store node node := by
      rw [hway]
      rintro ⟨d, hd, hu⟩
      exact hfree d hd hu
    rcases hspared node hn hstay with ⟨hmn, hc, hp⟩
    exact ⟨hc, hp, hagrees hmn⟩
  · exact hgone ((hcut.not_contains_iff node).mpr (Or.inr (hway.mpr hunder)))

end Settling

section Sequences

variable {α β : Type} (a : α) (r r' : Except Fault α) (k : α → Except Fault β)

-- What follows a computation that succeeds goes on with its result.
theorem bind_of_ok (h : r = .ok a) : r >>= k = k a := by
  rw [h]
  rfl

theorem ite_bind_of_ok (c : Prop) [Decidable c] (h : (if c then r else r') = .ok a) :
    (if c then r >>= k else r' >>= k) = k a := by
  by_cases hc : c
  · rw [if_pos hc] at h ⊢
    exact bind_of_ok a r k h
  · rw [if_neg hc] at h ⊢
    exact bind_of_ok a r' k h

end Sequences

/-- The comparison of the recorded and the live children of a tracked node, where
    it is not strict, succeeds over every sound record with the root of the
    snapshot. It changes nothing if they are the same, and otherwise it repairs
    the node. -/
theorem settle_repairs (s : Step) (hs : s.store.check = none) (live : Snapshot)
    (hlive : live.Built) (hroot : s.store.root = live.root) (node : Handle)
    (hn : s.store.contains node = true) :
    ∃ s', settle false live node s = .ok s' ∧
      (s.store.children node = live.children node → s' = s) ∧
      (s.store.children node ≠ live.children node → Repaired live node s s') := by
  have hproper := hlive.proper live
  have hsound := s.store.check_eq_none_iff_sound.mp hs
  unfold settle
  dsimp only
  by_cases hsame : s.store.children node = live.children node
  · rw [if_pos hsame]
    exact ⟨s, rfl, fun _ => rfl, fun hne => absurd hsame hne⟩
  · rw [if_neg hsame, if_neg Bool.false_ne_true]
    rcases clear_the_way live hproper node s hsound hroot hn with
      ⟨s₁, s₂, flag, s₃, hrun₁, hrun₂, hrun₃, hstrips⟩
    rcases repaired_of_cleared live hproper node s hsound hroot hn s₃ hstrips with
      ⟨s₄, hrun₄, hrepaired⟩
    refine ⟨_, ?_, fun h => absurd h hsame, fun _ => hrepaired⟩
    refine (ite_bind_of_ok s₁ _ _ _ _ hrun₁).trans ?_
    refine (bind_of_ok s₂ _ _ hrun₂).trans ?_
    refine (bind_of_ok (flag, s₃) _ _ hrun₃).trans ?_
    exact ite_bind_of_ok s₄ _ _ _ _ hrun₄

-- The last node of the path has to take up the one it is recorded under.
theorem settle_repairs_last :
    threeInARow.check = none ∧
      threeInARow.root = (Snapshot.ofEdges ⟨1⟩ [(⟨1⟩, ⟨3⟩), (⟨3⟩, ⟨2⟩)]).root ∧
      threeInARow.contains ⟨3⟩ = true ∧
      ∃ s', settle false (.ofEdges ⟨1⟩ [(⟨1⟩, ⟨3⟩), (⟨3⟩, ⟨2⟩)]) ⟨3⟩ { store := threeInARow } =
          .ok s' ∧
        Repaired (.ofEdges ⟨1⟩ [(⟨1⟩, ⟨3⟩), (⟨3⟩, ⟨2⟩)]) ⟨3⟩ { store := threeInARow } s' := by
  have hcheck : threeInARow.check = none := by decide +kernel
  have hroot : threeInARow.root = (Snapshot.ofEdges ⟨1⟩ [(⟨1⟩, ⟨3⟩), (⟨3⟩, ⟨2⟩)]).root := by
    decide +kernel
  have hn : threeInARow.contains ⟨3⟩ = true := by decide +kernel
  have hne : threeInARow.children ⟨3⟩ ≠
      (Snapshot.ofEdges ⟨1⟩ [(⟨1⟩, ⟨3⟩), (⟨3⟩, ⟨2⟩)]).children ⟨3⟩ := by
    decide +kernel
  rcases settle_repairs { store := threeInARow } hcheck _ (.ofEdges ⟨1⟩ _) hroot ⟨3⟩ hn with
    ⟨s', hs', _, hrepaired⟩
  exact ⟨hcheck, hroot, hn, s', hs', hrepaired hne⟩

end Pass

end TreeWatch
