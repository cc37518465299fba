import TreeWatch.Proofs.Capture
import TreeWatch.Proofs.Mutation

/-!
# Inserting Captured Subtrees

An insertion records a batch of new nodes under a tracked one, each with all
that a snapshot shows below it. The nodes below come in pre-order, so the
parent of each is tracked when its turn comes, and those that are tracked
already keep their place. What the record holds afterwards is therefore given
by a formula: an old node has the parent it had, a node of the batch has the
node the batch was put under, and any other new node has its parent in the
snapshot (`Planted`).

An insertion is announced as the arrival of the batch alone. For a consumer
that is enough only if no old node gets a new child. A tracked node that the
snapshot shows below the batch must not have anything below itself there
(`Clear`). Then the insertion is the reverse of a removal: the old record is
the new one without the subtrees of the batch (`Planted.cuts`), and everything
known about cuts applies.

## Main definitions

* `Store.Filled`: The record while the nodes below a new one are recorded.
* `Store.Planted`: The record while a batch is inserted.
* `Store.Clear`: No tracked node gets anything below itself from a snapshot.
* `Snapshot.Shuns`: A given node gets nothing below itself from a snapshot but
  the batch.

## Theorems

* `Store.Sound.filled_populate`: Recording what lies below a tracked node.
* `Store.Sound.planted_insertFilled`: An insertion of new nodes succeeds.
* `Store.Planted.cuts`: It is undone by removing the batch.
* `Store.Planted.children_parent`: The rows of the batch.
-/

namespace TreeWatch

open Forest (Under under_iff_up)

/-- No node that the snapshot shows below the batch is a child of `parent`
    there. -/
def Snapshot.Shuns (fill : Snapshot) (parent : Handle) (batch : List Handle) : Prop :=
  ∀ h ∈ batch, ∀ x ∈ fill.descendants h, fill.parent x ≠ some parent

-- A node is not below itself, so a batch of one is apart.
theorem Snapshot.Proper.apart_singleton (fill : Snapshot) (hfill : fill.Proper) (top : Handle) :
    ∀ a ∈ [top], ∀ b ∈ [top], b ∉ fill.descendants a := by
  intro a ha b hb hab
  rw [List.mem_singleton] at ha hb
  subst ha hb
  exact ((hfill.mem_descendants_iff_ne fill b b).mp hab).1 rfl

namespace Store

/-- The record `t` is `s` with those nodes of `nodes` that were new put under
    their parents in `fill`. -/
structure Filled (fill : Snapshot) (s : Store) (nodes : List Handle) (t : Store) : Prop where
  sound : t.Sound
  root : t.root = s.root
  contains_iff : ∀ x, t.contains x = true ↔ s.contains x = true ∨ x ∈ nodes
  old : ∀ x, s.contains x = true → t.parent x = s.parent x
  new : ∀ x ∈ nodes, s.contains x = false → t.parent x = fill.parent x

theorem contains_link (s : Store) (p h x : Handle) :
    (s.link p h).contains x = true ↔ x = h ∨ s.contains x = true := by
  rw [contains_iff, parent_link, root_link, contains_iff, eq_comm (a := x)]
  by_cases hx : h = x
  · simp only [hx, if_true, Option.some.injEq, exists_eq', or_true, true_or]
  · simp only [hx, if_false, false_or]

/-- The next node is put under its parent or passed over. -/
theorem Filled.step (fill : Snapshot) (s t : Store) (nodes : List Handle) (node p : Handle)
    (hf : Filled fill s nodes t) (hp : fill.parent node = some p) (hpt : t.contains p = true) :
    Filled fill s (nodes ++ [node])
      (if !t.contains node && t.contains p then t.link p node else t) := by
  cases hnode : t.contains node with
  | true =>
      simp only [Bool.not_true, Bool.false_and, Bool.false_eq_true, if_false]
      -- A node that is tracked now was so before or is one of `nodes`.
      have hcases := (hf.contains_iff node).mp hnode
      refine ⟨hf.sound, hf.root, fun x => ?_, hf.old, fun x hx hsx => ?_⟩
      · rw [hf.contains_iff, List.mem_append, List.mem_singleton]
        refine ⟨fun hx => hx.imp_right Or.inl, fun hx => ?_⟩
        rcases hx with hx | hx | rfl
        · exact Or.inl hx
        · exact Or.inr hx
        · exact hcases
      · rcases List.mem_append.mp hx with hx | hx
        · exact hf.new x hx hsx
        · rw [List.mem_singleton] at hx
          subst hx
          rw [hsx] at hcases
          exact hf.new x (hcases.resolve_left Bool.false_ne_true) hsx
  | false =>
      rw [hpt]
      simp only [Bool.not_false, Bool.and_self, if_true]
      refine ⟨hf.sound.link_new t p node hpt hnode, hf.root, fun x => ?_, fun x hsx => ?_,
        fun x hx hsx => ?_⟩
      · rw [contains_link, hf.contains_iff, List.mem_append, List.mem_singleton]
        tauto
      · have hne : node ≠ x := by
          rintro rfl
          rw [(hf.contains_iff node).mpr (Or.inl hsx)] at hnode
          exact absurd hnode.symm Bool.false_ne_true
        rw [parent_link, if_neg hne, hf.old x hsx]
      · rw [parent_link]
        by_cases hne : node = x
        · rw [if_pos hne, ← hne, hp]
        · rw [if_neg hne]
          rw [List.mem_append, List.mem_singleton] at hx
          exact hf.new x (hx.resolve_right (Ne.symm hne)) hsx

/-- What holds at the start and is passed on by each node of a list, given the
    nodes in front of it, holds when all of them were visited. -/
theorem foldl_visited {σ : Type} (f : σ → Handle → σ) (P : List Handle → σ → Prop)
    (nodes : List Handle) (s : σ) (hstart : P [] s)
    (hnext : ∀ done node rest t, done ++ node :: rest = nodes → P done t →
      P (done ++ [node]) (f t node)) :
    P nodes (nodes.foldl f s) := by
  have hloop : ∀ rest done t, done ++ rest = nodes → P done t → P nodes (rest.foldl f t) := by
    intro rest
    induction rest with
    | nil =>
        intro done t hdone hP
        rw [List.append_nil] at hdone
        exact hdone ▸ hP
    | cons node rest ih =>
        intro done t hdone hP
        have hparts : (done ++ [node]) ++ rest = nodes := by
          rw [List.append_assoc, List.singleton_append, hdone]
        exact ih (done ++ [node]) (f t node) hparts (hnext done node rest t hdone hP)
  exact hloop nodes [] s (List.nil_append nodes) hstart

/-- Recording what lies below a tracked node. Each node comes after its parent
    in the walk, so its parent is tracked when its turn comes. -/
theorem Sound.filled_populate (s : Store) (hs : s.Sound) (h : Handle) (fill : Snapshot)
    (hfill : fill.Proper) (hh : s.contains h = true) :
    Filled fill s (fill.descendants h) (s.populate h fill) := by
  have hwalk := hfill.walk_descendants fill h
  have hstart : Filled fill s [] s := by
    refine ⟨hs, rfl, fun x => ?_, fun _ _ => rfl, fun x hx => ?_⟩
    · simp only [List.not_mem_nil, or_false]
    · exact absurd hx List.not_mem_nil
  rw [populate]
  refine foldl_visited _ (Filled fill s) _ s hstart fun done node rest t hdone hf => ?_
  have hparent : ∃ p, fill.parent node = some p ∧ t.contains p = true := by
    rcases Forest.parent_first_of_walk _ _ hwalk done node rest hdone.symm with hn | ⟨p, hp, hn⟩
    · exact ⟨h, (hfill.tree.mem_kids h node).mp hn, (hf.contains_iff h).mpr (Or.inl hh)⟩
    · exact ⟨p, (hfill.tree.mem_kids p node).mp hn, (hf.contains_iff p).mpr (Or.inr hp)⟩
  rcases hparent with ⟨p, hp, hpt⟩
  simp only [hp]
  exact hf.step fill s t done node p hp hpt

/-- A root filled with all that a snapshot shows below it has the root and the
    links of the snapshot. -/
theorem Filled.links (fill : Snapshot) (r : Handle) (t : Store) (hfill : fill.Proper)
    (hr : fill.root = some r) (hf : Filled fill (ofRoot (some r)) (fill.descendants r) t) :
    t.root = fill.root ∧ ∀ x, t.parent x = fill.parent x := by
  refine ⟨hf.root.trans hr.symm, fun x => ?_⟩
  have hfresh : (ofRoot (some r)).contains x = true ↔ x = r := by
    rw [Store.contains_iff, parent_ofRoot]
    simp only [ofRoot, Option.some.injEq, reduceCtorEq, exists_false, or_false, eq_comm]
  by_cases hxr : x = r
  · rw [hf.old x (hfresh.mpr hxr), parent_ofRoot, hxr, hfill.tree.root_up r hr]
  · have hnew : (ofRoot (some r)).contains x = false := by
      rw [← Bool.not_eq_true, hfresh]
      exact hxr
    cases hp : fill.parent x with
    | some p =>
        rcases hfill.tree.rooted x p hp with ⟨r', hr', hu⟩
        rw [hr, Option.some.injEq] at hr'
        rw [hf.new x ((hfill.mem_descendants_iff_ne fill r x).mpr ⟨hxr, hr' ▸ hu⟩) hnew, hp]
    | none =>
        -- It is not below the root either, so it was never put anywhere.
        refine ((not_contains_iff _ x).mp ?_).2
        rw [← Bool.not_eq_true, hf.contains_iff, hfresh, hfill.mem_descendants fill r x]
        rintro (hx | ⟨c, hc, hu⟩)
        · exact hxr hx
        · rw [← Forest.eq_of_under_top hp hu, hc] at hp
          exact absurd hp (by simp only [reduceCtorEq, not_false_eq_true])

/-- The record `t` is `s` with the new nodes `batch` under `parent`, each with
    all that `fill` shows below it and that was new. -/
structure Planted (fill : Snapshot) (parent : Handle) (s : Store) (batch : List Handle)
    (t : Store) : Prop where
  sound : t.Sound
  root : t.root = s.root
  contains_iff : ∀ x, t.contains x = true ↔
    s.contains x = true ∨ x ∈ batch ∨ ∃ h ∈ batch, x ∈ fill.descendants h
  old : ∀ x, s.contains x = true → t.parent x = s.parent x
  top : ∀ x ∈ batch, s.contains x = false → t.parent x = some parent
  below : ∀ h ∈ batch, ∀ x ∈ fill.descendants h, s.contains x = false → x ∉ batch →
    t.parent x = fill.parent x

/-- One more node of the batch, recorded with all below it. -/
theorem Planted.step (fill : Snapshot) (parent : Handle) (s t : Store) (batch : List Handle)
    (h : Handle) (hfill : fill.Proper) (hpl : Planted fill parent s batch t)
    (hp : s.contains parent = true) (hh : t.contains h = false) :
    Planted fill parent s (batch ++ [h]) ((t.link parent h).populate h fill) := by
  have hpt : t.contains parent = true := (hpl.contains_iff parent).mpr (Or.inl hp)
  -- What was tracked before keeps its link while the next node is put in.
  have hne : ∀ x, t.contains x = true → h ≠ x := by
    rintro x hx rfl
    rw [hh] at hx
    exact Bool.false_ne_true hx
  have hold : ∀ x, s.contains x = true → t.contains x = true :=
    fun x hx => (hpl.contains_iff x).mpr (Or.inl hx)
  have hlink : ∀ x, t.contains x = true →
      (t.link parent h).contains x = true ∧ (t.link parent h).parent x = t.parent x := by
    intro x hx
    refine ⟨(t.contains_link parent h x).mpr (Or.inr hx), ?_⟩
    rw [parent_link, if_neg (hne x hx)]
  have hself := (t.contains_link parent h h).mpr (Or.inl rfl)
  have hf := (hpl.sound.link_new t parent h hpt hh).filled_populate _ h fill hfill hself
  refine ⟨hf.sound, hf.root.trans hpl.root, fun x => ?_, fun x hx => ?_, fun x hx hsx => ?_,
    fun a ha x hx hsx hxb => ?_⟩
  · rw [hf.contains_iff, contains_link, hpl.contains_iff]
    simp only [List.mem_append, List.mem_singleton, or_and_right, exists_or, exists_eq_left]
    rw [or_left_comm, or_assoc, or_assoc, or_assoc, or_left_comm (a := x = h), or_assoc]
  · rcases hlink x (hold x hx) with ⟨hc, hpar⟩
    rw [hf.old x hc, hpar, hpl.old x hx]
  · rcases List.mem_append.mp hx with hx | hx
    · rcases hlink x ((hpl.contains_iff x).mpr (Or.inr (Or.inl hx))) with ⟨hc, hpar⟩
      rw [hf.old x hc, hpar, hpl.top x hx hsx]
    · rw [List.mem_singleton] at hx
      rw [hx, hf.old h hself, parent_link, if_pos rfl]
  · rw [List.mem_append, List.mem_singleton, not_or] at hxb
    rcases List.mem_append.mp ha with ha | ha
    · rcases hlink x ((hpl.contains_iff x).mpr (Or.inr (Or.inr ⟨a, ha, hx⟩))) with ⟨hc, hpar⟩
      rw [hf.old x hc, hpar, hpl.below a ha x hx hsx hxb.1]
    · rw [List.mem_singleton] at ha
      subst ha
      -- A node below the last one may have come with an earlier one already.
      cases htx : t.contains x with
      | true =>
          rcases hlink x htx with ⟨hc, hpar⟩
          rcases (hpl.contains_iff x).mp htx with hsx' | hxb' | ⟨b, hb, hxb'⟩
          · rw [hsx] at hsx'
            exact absurd hsx' Bool.false_ne_true
          · exact absurd hxb' hxb.1
          · rw [hf.old x hc, hpar, hpl.below b hb x hxb' hsx hxb.1]
      | false =>
          refine hf.new x hx ?_
          rw [← Bool.not_eq_true, contains_link, not_or, Bool.not_eq_true]
          exact ⟨hxb.2, htx⟩

/-- A batch of new nodes, none of which the snapshot shows below another, can
    be inserted under any tracked node. -/
theorem Sound.planted_insertFilled (s : Store) (hs : s.Sound) (parent : Handle)
    (batch : List Handle) (fill : Snapshot) (hfill : fill.Proper) (hp : s.contains parent = true)
    (hnew : ∀ h ∈ batch, s.contains h = false) (hnd : batch.Nodup)
    (hapart : ∀ a ∈ batch, ∀ b ∈ batch, b ∉ fill.descendants a) :
    ∃ t, s.insertFilled parent batch fill = .ok t ∧ Planted fill parent s batch t := by
  -- The induction is on what is left of the batch; what is done is planted.
  have hloop : ∀ rest done t, done ++ rest = batch → Planted fill parent s done t →
      ∃ u, t.insertFilled parent rest fill = .ok u ∧ Planted fill parent s batch u := by
    intro rest
    induction rest with
    | nil =>
        intro done t hdone hpl
        rw [List.append_nil] at hdone
        exact ⟨t, rfl, hdone ▸ hpl⟩
    | cons h rest ih =>
        intro done t hdone hpl
        have hmem : ∀ a ∈ done, a ∈ batch := fun a ha => hdone ▸ List.mem_append_left _ ha
        have hhb : h ∈ batch := hdone ▸ List.mem_append_right _ List.mem_cons_self
        -- The next node was not tracked, was not planted, and is below no other.
        have hth : t.contains h = false := by
          rw [← Bool.not_eq_true, hpl.contains_iff, hnew h hhb]
          rintro (hf | hd | ⟨a, ha, hd⟩)
          · exact Bool.false_ne_true hf
          · rw [← hdone] at hnd
            exact List.disjoint_of_nodup_append hnd hd List.mem_cons_self
          · exact hapart a (hmem a ha) h hhb hd
        have hpt : t.contains parent = true := (hpl.contains_iff parent).mpr (Or.inl hp)
        have hins : t.insert parent h = .ok (t.insertionRow parent h, t.link parent h) := by
          simp only [insert, hpt, hth, Bool.not_true, Bool.false_eq_true, if_false]
        rcases ih (done ++ [h]) ((t.link parent h).populate h fill)
          (by rw [List.append_assoc, List.singleton_append, hdone])
          (hpl.step fill parent s t done h hfill hp hth) with ⟨u, hu, hplu⟩
        refine ⟨u, ?_, hplu⟩
        rw [← hu, insertFilled, List.foldlM_cons, hins]
        rfl
  refine hloop batch [] s rfl ⟨hs, rfl, fun x => ?_, fun _ _ => rfl, fun x hx => ?_, fun a ha => ?_⟩
  · simp only [List.not_mem_nil, false_and, exists_false, or_false]
  · exact absurd hx List.not_mem_nil
  · exact absurd ha List.not_mem_nil

/-- No tracked node that `fill` shows below the batch has anything below
    itself there. -/
def Clear (s : Store) (batch : List Handle) (fill : Snapshot) : Prop :=
  ∀ h ∈ batch, ∀ x ∈ fill.descendants h, s.contains x = true → fill.children x = []

section Planting

variable {fill : Snapshot} {parent : Handle} {s t : Store} {batch : List Handle}

/-- Whatever ends up under the batch is new. -/
theorem Planted.new_of_under (hpl : Planted fill parent s batch t) (hs : s.Sound)
    (hnew : ∀ h ∈ batch, s.contains h = false) (h x : Handle) (hh : h ∈ batch)
    (hu : Under t.parent x h) : s.contains x = false := by
  induction hu using Relation.ReflTransGen.head_induction_on with
  | refl => exact hnew h hh
  | @head c p hc _ ih =>
      rw [← Bool.not_eq_true]
      intro hsc
      rw [hpl.old c hsc] at hc
      have hp := hs.tree.held_up c p hc
      rw [← contains_iff_held, ih] at hp
      exact Bool.false_ne_true hp

/-- Whatever is new ends up under the batch, because the way there leads only
    through new nodes. -/
theorem Planted.under_of_new (hpl : Planted fill parent s batch t) (hfill : fill.Proper)
    (hclear : Clear s batch fill) (h x : Handle) (hh : h ∈ batch) (hx : x ∈ fill.descendants h)
    (hsx : s.contains x = false) : ∃ b ∈ batch, Under t.parent x b := by
  rw [hfill.mem_descendants_iff_ne] at hx
  rcases hx with ⟨hne, hu⟩
  induction hu using Relation.ReflTransGen.head_induction_on with
  | refl => exact absurd rfl hne
  | @head c p hc hph ih =>
      by_cases hcb : c ∈ batch
      · exact ⟨c, hcb, Under.refl c⟩
      · have hcd := (hfill.mem_descendants_iff_ne fill h c).mpr ⟨hne, (Under.of_up hc).trans hph⟩
        have hcp := (hpl.below h hh c hcd hsx hcb).trans hc
        by_cases hp : p = h
        · exact ⟨h, hh, Under.of_up (hp ▸ hcp)⟩
        · have hsp : s.contains p = false := by
            rw [← Bool.not_eq_true]
            intro hsp
            have hleaf := hclear h hh p ((hfill.mem_descendants_iff_ne fill h p).mpr ⟨hp, hph⟩) hsp
            have hck := (hfill.tree.mem_kids p c).mpr hc
            rw [hleaf] at hck
            exact List.not_mem_nil hck
          rcases ih hsp hp with ⟨b, hb, hpb⟩
          exact ⟨b, hb, (Under.of_up hcp).trans hpb⟩

/-- Removing the batch again gives back the old record. -/
theorem Planted.cuts (hpl : Planted fill parent s batch t) (hs : s.Sound) (hfill : fill.Proper)
    (hnew : ∀ h ∈ batch, s.contains h = false) (hclear : Clear s batch fill) :
    Cuts t s fun x => ∃ h ∈ batch, Under t.parent x h := by
  have hroot : ∀ r, t.root = some r → ¬ ∃ h ∈ batch, Under t.parent r h := by
    rintro r hr ⟨h, hh, hu⟩
    have hsr := hpl.new_of_under hs hnew h r hh hu
    rw [hpl.root] at hr
    rw [(s.contains_iff r).mpr (Or.inl hr)] at hsr
    exact Bool.false_ne_true hsr.symm
  refine ⟨hs, hpl.root.symm, ⟨fun x p hx hg => ?_, fun x hg => ?_, fun x hg => ?_⟩, hroot⟩
  · rcases hg with ⟨h, hh, hu⟩
    exact ⟨h, hh, (Under.of_up hx).trans hu⟩
  · rcases hg with ⟨h, hh, hu⟩
    exact ((s.not_contains_iff x).mp (hpl.new_of_under hs hnew h x hh hu)).2
  · cases hsx : s.contains x with
    | true => exact (hpl.old x hsx).symm
    | false =>
        rw [((s.not_contains_iff x).mp hsx).2]
        cases htx : t.parent x with
        | none => rfl
        | some p =>
            refine absurd ?_ hg
            rcases (hpl.contains_iff x).mp ((t.contains_iff x).mpr (Or.inr ⟨p, htx⟩)) with
              hx | hx | ⟨h, hh, hx⟩
            · rw [hsx] at hx
              exact absurd hx Bool.false_ne_true
            · exact ⟨x, hx, Under.refl x⟩
            · exact hpl.under_of_new hfill hclear h x hh hx hsx

/-- Where no old node gets a child from the snapshot, neither does the one under
    which the batch is put. -/
theorem Clear.shuns (hclear : Clear s batch fill) (hfill : fill.Proper)
    (hp : s.contains parent = true) (hnew : ∀ h ∈ batch, s.contains h = false) :
    fill.Shuns parent batch := by
  intro h hh x hx hxp
  have hnh : parent ≠ h := by
    rintro rfl
    rw [hnew parent hh] at hp
    exact Bool.false_ne_true hp
  rcases (hfill.mem_descendants_iff_ne fill h x).mp hx with ⟨hne, hu⟩
  rcases (under_iff_up x h).mp hu with rfl | ⟨p, hup, hph⟩
  · exact hne rfl
  · rw [hxp, Option.some.injEq] at hup
    subst hup
    have hleaf := hclear h hh parent
      ((hfill.mem_descendants_iff_ne fill h parent).mpr ⟨hnh, hph⟩) hp
    have hkid := (hfill.tree.mem_kids parent x).mpr hxp
    rw [hleaf] at hkid
    exact List.not_mem_nil hkid

/-- The children of the node under which the batch was put are the old ones
    and the batch. -/
theorem Planted.mem_children_parent (hpl : Planted fill parent s batch t) (hs : s.Sound)
    (hnew : ∀ h ∈ batch, s.contains h = false) (hshuns : fill.Shuns parent batch) (c : Handle) :
    c ∈ t.children parent ↔ c ∈ s.children parent ∨ c ∈ batch := by
  rw [hpl.sound.tree.mem_kids, hs.tree.mem_kids]
  constructor
  · intro hc
    by_cases hcb : c ∈ batch
    · exact Or.inr hcb
    · cases hsc : s.contains c with
      | true => exact Or.inl (hpl.old c hsc ▸ hc)
      | false =>
          rcases (hpl.contains_iff c).mp ((t.contains_iff c).mpr (Or.inr ⟨parent, hc⟩)) with
            hsc' | hcb' | ⟨h, hh, hcd⟩
          · rw [hsc] at hsc'
            exact absurd hsc' Bool.false_ne_true
          · exact absurd hcb' hcb
          · exact absurd ((hpl.below h hh c hcd hsc hcb).symm.trans hc) (hshuns h hh c hcd)
  · rintro (hc | hc)
    · exact (hpl.old c ((s.contains_iff c).mpr (Or.inr ⟨parent, hc⟩))).trans hc
    · exact hpl.top c hc (hnew c hc)

/-- A batch that fits between two parts of the rows takes the rows between
    them. -/
theorem Planted.children_parent (hpl : Planted fill parent s batch t) (hs : s.Sound)
    (hnew : ∀ h ∈ batch, s.contains h = false) (hshuns : fill.Shuns parent batch)
    (front back : List Handle) (hrows : s.children parent = front ++ back)
    (hasc : Handle.Ascending (front ++ batch ++ back)) :
    t.children parent = front ++ batch ++ back := by
  refine hpl.sound.children_eq t parent _ hasc fun c => ?_
  rw [← hpl.sound.tree.mem_kids, hpl.mem_children_parent hs hnew hshuns, hrows]
  simp only [List.mem_append]
  tauto

end Planting

end Store

end TreeWatch
