import TreeWatch.Proofs.Capture

/-!
# What a Capture Shows

Whatever the child function of a capture reports, the capture asks for the
children of each node it comes to, once, and comes to an end. What it shows is
then a tree of exactly the nodes that the reports lead to, even if the reports
contradict each other: every node but the root has one parent, and that parent
did report it.

A child function that reports no node twice, and never the root, is shown as it
is. If it does report a node twice, the tree depends on which report comes first,
but only on what is reported under each node: neither the order of a report nor a
repetition in it makes a difference.

## Main definitions

* `Snapshot.Leads`: A node that the reports lead to.
* `Snapshot.Charts`: What a capture shows of a child function.

## Theorems

* `Snapshot.Captures.contains_iff_leads`: A capture holds what the reports lead
  to.
* `Snapshot.Explores.congr`: Only what the nodes in question report matters.
* `Snapshot.charts_capture`: A capture shows its child function, and reports with
  the same members are captured alike.
-/

namespace TreeWatch

open Forest (Under)

namespace Snapshot

/-- The reports lead from `root` to `h`, in any number of steps. -/
def Leads (childrenOf : Handle → List Handle) (root h : Handle) : Prop :=
  Relation.ReflTransGen (fun p c => c ∈ childrenOf p) root h

/-- The snapshot shows what the reports of a child function lead to from `root`, as
    a tree. It comes from a complete expansion, and each of these nodes is asked for
    its children once. -/
structure Charts (childrenOf : Handle → List Handle) (root : Handle) (s : Snapshot) : Prop where
  explored : Explores childrenOf [root] (single root) (questions childrenOf root) s
  asked_once : (questions childrenOf root).Nodup
  mem_asked : ∀ h, h ∈ questions childrenOf root ↔ Leads childrenOf root h
  root_eq : s.root = some root
  contains_iff : ∀ h, s.contains h = true ↔ Leads childrenOf root h
  parent_root : s.parent root = none
  exists_parent : ∀ h, s.contains h = true → h ≠ root →
    ∃ p, s.parent h = some p ∧ s.contains p = true ∧ h ∈ childrenOf p
  parent_of_unknown : ∀ h, s.contains h = false → s.parent h = none
  mem_children : ∀ p c, c ∈ s.children p ↔ s.parent c = some p
  ascending : ∀ p, Handle.Ascending (s.children p)
  rooted : ∀ h, s.contains h = true → Under s.parent h root
  faithful : (∀ p q c, Leads childrenOf root p → Leads childrenOf root q → c ∈ childrenOf p →
      c ∈ childrenOf q → p = q) →
    (∀ p, Leads childrenOf root p → root ∉ childrenOf p) →
    ∀ p, Leads childrenOf root p → s.children p = (childrenOf p).dedup.mergeSort

/-- Sorting the distinct members of a list gives an ascending list. -/
theorem ascending_mergeSort_dedup (hs : List Handle) :
    Handle.Ascending hs.dedup.mergeSort ∧ ∀ x, x ∈ hs.dedup.mergeSort ↔ x ∈ hs := by
  refine ⟨?_, fun x => ?_⟩
  · have hnd : (hs.dedup.mergeSort).Nodup := (List.mergeSort_perm _ _).nodup_iff.mpr hs.nodup_dedup
    exact (List.pairwise_mergeSort' (· ≤ ·) hs.dedup).imp₂ (fun a b => lt_of_le_of_ne) hnd
  · rw [(List.mergeSort_perm _ _).mem_iff, List.mem_dedup]

section Captures

variable (childrenOf : Handle → List Handle) (root : Handle) (s : Snapshot)
  (hs : Captures childrenOf root s)

include hs

/-- A capture holds exactly the nodes that the reports lead to. -/
theorem Captures.contains_iff_leads (h : Handle) :
    s.contains h = true ↔ Leads childrenOf root h := by
  constructor
  · intro hh
    rcases hs.proper.tree.held_under_root h ((hs.proper.contains_iff h).mp hh) with ⟨r, hr, hu⟩
    rw [hs.root_eq, Option.some.injEq] at hr
    subst hr
    -- Every link on the way to the root was reported.
    induction hu using Relation.ReflTransGen.head_induction_on with
    | refl => exact Relation.ReflTransGen.refl
    | @head c p hp _ ih =>
        exact (ih (hs.proper.contains_of_parent s c p hp).2).tail (hs.reported c p hp)
  · intro hl
    induction hl with
    | refl => exact (hs.proper.contains_iff root).mpr (Or.inl hs.root_eq)
    | tail _ hc ih => exact hs.closed _ ih _ hc

/-- If no node is reported twice, and the root not at all, all reports are shown.
    A reported node is captured then and has a parent that reported it. -/
theorem Captures.children_eq
    (hone : ∀ p q c, Leads childrenOf root p → Leads childrenOf root q → c ∈ childrenOf p →
      c ∈ childrenOf q → p = q)
    (hroot : ∀ p, Leads childrenOf root p → root ∉ childrenOf p) (p : Handle)
    (hp : Leads childrenOf root p) : s.children p = (childrenOf p).dedup.mergeSort := by
  have hcontains := hs.contains_iff_leads childrenOf root s
  rcases ascending_mergeSort_dedup (childrenOf p) with ⟨hasc, hmem⟩
  refine Handle.ascending_ext _ _ (hs.proper.ascending p) hasc fun c => ?_
  rw [hs.proper.tree.mem_kids, hmem]
  refine ⟨hs.reported c p, fun hc => ?_⟩
  have hheld := (hs.proper.contains_iff c).mp (hs.closed p ((hcontains p).mpr hp) c hc)
  rcases hheld with hr | ⟨q, hq⟩
  · rw [hs.root_eq, Option.some.injEq] at hr
    exact absurd (hr ▸ hc) (hroot p hp)
  · have hql := (hcontains q).mp (hs.proper.contains_of_parent s c q hq).2
    rw [hq, hone p q c hp hql hc (hs.reported c q hq)]

end Captures

/-- A capture shows its child function. -/
theorem Charts.of_capture (childrenOf : Handle → List Handle) (root : Handle) :
    Charts childrenOf root (capture childrenOf root) := by
  rcases explores_capture childrenOf root with ⟨hrun, hg⟩
  have hcap := captures_capture childrenOf root
  have hcontains := hcap.contains_iff_leads childrenOf root _
  have hnd := hg.nodup
  have hasked := hg.contains_iff
  rw [List.append_nil] at hnd hasked
  refine ⟨hrun, hnd, fun h => (hasked h).symm.trans (hcontains h), hcap.root_eq, hcontains,
    hcap.proper.tree.root_up root hcap.root_eq, fun h hh hne => ?_, fun h hh => ?_,
    hcap.proper.tree.mem_kids, hcap.proper.ascending, fun h hh => ?_,
    hcap.children_eq childrenOf root _⟩
  · rcases (hcap.proper.contains_iff h).mp hh with hr | ⟨p, hp⟩
    · rw [hcap.root_eq, Option.some.injEq] at hr
      exact absurd hr.symm hne
    · exact ⟨p, hp, (hcap.proper.contains_of_parent _ h p hp).2, hcap.reported h p hp⟩
  · cases hp : (capture childrenOf root).parent h with
    | none => rfl
    | some p =>
        rw [(hcap.proper.contains_of_parent _ h p hp).1] at hh
        exact absurd hh.symm Bool.false_ne_true
  · rcases hcap.proper.tree.held_under_root h ((hcap.proper.contains_iff h).mp hh) with
      ⟨r, hr, hu⟩
    rw [hcap.root_eq, Option.some.injEq] at hr
    exact hr ▸ hu

section Reports

variable (childrenOf childrenOf' : Handle → List Handle)

-- What is new in a report depends on the members of the report.
theorem freshChildren_congr (s : Snapshot) (reported reported' : List Handle)
    (hsame : ∀ c, c ∈ reported' ↔ c ∈ reported) :
    s.freshChildren reported' = s.freshChildren reported := by
  refine Handle.ascending_ext _ _ (s.ascending_freshChildren reported')
    (s.ascending_freshChildren reported) fun c => ?_
  rw [mem_freshChildren, mem_freshChildren, hsame]

/-- Only the members of what the nodes in question report matter. -/
theorem Explores.congr (stack asked : List Handle) (s t : Snapshot)
    (h : Explores childrenOf stack s asked t)
    (hsame : ∀ p ∈ asked, ∀ c, c ∈ childrenOf' p ↔ c ∈ childrenOf p) :
    Explores childrenOf' stack s asked t := by
  induction h with
  | done s => exact .done s
  | ask node rest asked s t _ ih =>
      have hnode := s.freshChildren_congr _ _ (hsame node List.mem_cons_self)
      refine .ask node rest asked s t ?_
      rw [hnode]
      exact ih fun p hp => hsame p (List.mem_cons_of_mem node hp)

/-- Reports with the same members are captured alike. -/
theorem capture_congr (root : Handle)
    (hsame : ∀ p, Leads childrenOf root p → ∀ c, c ∈ childrenOf' p ↔ c ∈ childrenOf p) :
    capture childrenOf' root = capture childrenOf root := by
  have hcharts := Charts.of_capture childrenOf root
  have hrun := hcharts.explored.congr childrenOf childrenOf' [root] _ _ _ fun p hp =>
    hsame p ((hcharts.mem_asked p).mp hp)
  exact congrArg Prod.snd (grow_eq_of_explores childrenOf' [root] _ _ _ hrun _
    (Handle.length_le_of_nodup _ hcharts.asked_once))

end Reports

/-- The child list that edges describe holds the ends of the edges from a node. -/
theorem mem_kids_edgeTable (edges : List (Handle × Handle)) (p c : Handle) :
    c ∈ Forest.kids (edgeTable edges) p ↔ (p, c) ∈ edges := by
  induction edges with
  | nil =>
      rw [edgeTable, List.foldr_nil, Forest.kids, Std.ExtTreeMap.getD_empty]
      exact iff_of_false List.not_mem_nil List.not_mem_nil
  | cons e edges ih =>
      rcases e with ⟨q, d⟩
      have htable : edgeTable ((q, d) :: edges) =
          (edgeTable edges).insert q (d :: Forest.kids (edgeTable edges) q) := rfl
      rw [htable, Forest.kids_insert, List.mem_cons, Prod.mk.injEq]
      by_cases hq : q = p
      · subst hq
        rw [if_pos rfl, List.mem_cons, ih]
        simp only [true_and]
      · rw [if_neg hq, ih]
        simp only [Ne.symm hq, false_and, false_or]

/-- A capture shows its child function, whatever that reports, and depends only on
    what is reported under each node it shows. So it is with edges, which report
    the ends of the edges from a node. -/
theorem charts_capture (root : Handle) (childrenOf : Handle → List Handle)
    (edges : List (Handle × Handle)) :
    Charts childrenOf root (capture childrenOf root) ∧
      (∀ childrenOf' : Handle → List Handle,
        (∀ p, Leads childrenOf root p → ∀ c, c ∈ childrenOf' p ↔ c ∈ childrenOf p) →
        capture childrenOf' root = capture childrenOf root) ∧
      Charts (fun p => (edges.filter (·.1 = p)).map Prod.snd) root (ofEdges root edges) ∧
      ∀ edges', (∀ e, e ∈ edges' ↔ e ∈ edges) → ofEdges root edges' = ofEdges root edges := by
  have hends : ∀ p c, c ∈ (edges.filter (·.1 = p)).map Prod.snd ↔ (p, c) ∈ edges := by
    intro p c
    simp only [List.mem_map, List.mem_filter, decide_eq_true_eq, Prod.exists, exists_eq_right]
  refine ⟨Charts.of_capture childrenOf root, fun childrenOf' => capture_congr _ childrenOf' root,
    ?_, fun edges' hsame => ?_⟩
  · have heq : ofEdges root edges = capture (fun p => (edges.filter (·.1 = p)).map Prod.snd) root :=
      capture_congr _ _ root fun p _ c => (mem_kids_edgeTable edges p c).trans (hends p c).symm
    exact heq ▸ Charts.of_capture _ root
  · refine capture_congr _ _ root fun p _ c => ?_
    rw [mem_kids_edgeTable, mem_kids_edgeTable, hsame]

-- The fourth node is reported under two others, and the root under it. The last
-- one on the stack is asked first.
example :
    (ofEdges ⟨1⟩ [(⟨1⟩, ⟨2⟩), (⟨1⟩, ⟨3⟩), (⟨2⟩, ⟨5⟩), (⟨3⟩, ⟨5⟩), (⟨5⟩, ⟨1⟩)]).entries =
      [(⟨1⟩, [⟨2⟩, ⟨3⟩]), (⟨2⟩, []), (⟨3⟩, [⟨5⟩]), (⟨5⟩, [])] := by
  decide +kernel

end Snapshot

end TreeWatch
