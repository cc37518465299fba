import TreeWatch.Proofs.FullPass

/-!
# What the First Sweep Removes

The first part of a script takes away what is not live and nothing else, in an
order in which no row number goes out of date. Each removal covers a maximal run
of dead rows under a node that is live with all nodes above it, and no such run
is left out. Runs under one node go from the highest row down, and what goes
under a node goes before what goes under a node above it. Behind the first part
nothing dead is tracked any more, so nothing dead is removed.

The rows are numbered as in the record before the pass. The trace shows that the
same nodes are in them when their removal is announced.

## Main definitions

* `Pass.IsDead`, `Pass.DeadRun`: A maximal run of dead rows, and one on a live path.
* `Pass.Precedes`: The order in which runs go.

## Theorems

* `mem_runsWhere_iff`: The runs of a list are its maximal runs.
* `Pass.of_mem_deadRows`, `Pass.mem_deadRows`: The sweep comes to the dead runs
  below a node, and to all of them.
* `Pass.pairwise_deadRows`: The order in which it comes to them.
* `Pass.Course.removed_live`: What fits stays so, and loses live rows only.
* `Pass.run_dead_rows`: All of this for the script of a pass.
-/

namespace TreeWatch

open Forest (Under)

section Runs

variable {α : Type} (p : α → Bool)

-- A run ends where the test fails for the first time.
theorem Maximal.takeWhile_eq (xs front rows back : List α) (h : Maximal p xs front rows back) :
    (rows ++ back).takeWhile p = rows := by
  rw [List.takeWhile_append_of_pos h.inside]
  cases back with
  | nil => exact List.append_nil rows
  | cons x back =>
      rw [List.takeWhile_cons_of_neg (by rw [h.behind x rfl]; exact Bool.false_ne_true),
        List.append_nil]

-- Runs that start at the same entry are equal.
theorem Maximal.eq_of_front (xs front rows back rows' back' : List α)
    (h : Maximal p xs front rows back) (h' : Maximal p xs front rows' back') : rows = rows' := by
  have hsplit := h.split.symm.trans h'.split
  rw [List.append_assoc, List.append_assoc, List.append_cancel_left_eq] at hsplit
  rw [← h.takeWhile_eq p xs front rows back, hsplit, h'.takeWhile_eq p xs front rows' back']

/-- A maximal run is the first one, or it lies behind it. -/
theorem Maximal.first_or_later (as ys zs front rows back : List α) (has : ∀ a ∈ as, p a = false)
    (hfirst : Maximal p (as ++ ys ++ zs) as ys zs)
    (h : Maximal p (as ++ ys ++ zs) front rows back) :
    (front = as ∧ rows = ys) ∨ ∃ mid, front = as ++ ys ++ mid ∧ Maximal p zs mid rows back := by
  have hsame : front = as → (front = as ∧ rows = ys) := fun he =>
    ⟨he, Maximal.eq_of_front p _ as rows back ys zs (he ▸ h) hfirst⟩
  have hsplit := h.split
  rw [List.append_assoc front] at hsplit
  rcases List.append_eq_append_iff.mp hsplit with ⟨mid, rfl, hzs⟩ | ⟨mid, hmid, hrows⟩
  · refine Or.inr ⟨mid, rfl, hzs.trans (List.append_assoc _ _ _).symm, h.nonempty, h.inside,
      fun x hx => h.before x ?_, h.behind⟩
    rw [List.getLast?_append, Option.mem_def.mp hx]
    rfl
  · rcases List.append_eq_append_iff.mp hmid with ⟨k, rfl, hys⟩ | ⟨k, rfl, rfl⟩
    · -- The entry before the run is not in the first run.
      rcases List.eq_nil_or_concat k with rfl | ⟨k, z, rfl⟩
      · exact Or.inl (hsame (List.append_nil as))
      · have hlast : (as ++ k.concat z).getLast? = some z := by
          rw [List.concat_eq_append, ← List.append_assoc, List.getLast?_concat]
        have hz : z ∈ ys := by
          rw [hys, List.concat_eq_append]
          exact List.mem_append_left mid (List.mem_append_right k (List.mem_singleton_self z))
        exact Bool.noConfusion ((h.before z hlast).symm.trans (hfirst.inside z hz))
    · -- The run does not begin before the first run.
      cases k with
      | nil => exact Or.inl (hsame (List.append_nil front).symm)
      | cons a k =>
          rcases List.exists_cons_of_ne_nil h.nonempty with ⟨y, more, rfl⟩
          rw [List.cons_append, List.cons_append, List.cons_append, List.cons.injEq] at hrows
          have hy := h.inside y List.mem_cons_self
          rw [hrows.1, has a (List.mem_append_right front List.mem_cons_self)] at hy
          exact Bool.noConfusion hy

/-- A run behind the first one is maximal in the whole list. -/
theorem Maximal.later (as ys zs mid rows back : List α)
    (hfirst : Maximal p (as ++ ys ++ zs) as ys zs) (h : Maximal p zs mid rows back) :
    Maximal p (as ++ ys ++ zs) (as ++ ys ++ mid) rows back := by
  refine ⟨?_, h.nonempty, h.inside, fun x hx => ?_, h.behind⟩
  · rw [h.split]
    simp only [List.append_assoc]
  · cases hlast : mid.getLast? with
    | some y =>
        rw [List.getLast?_append, hlast] at hx
        exact h.before x (hlast.trans hx)
    | none =>
        -- The entry behind the first run is not in this one.
        rcases List.exists_cons_of_ne_nil h.nonempty with ⟨y, more, rfl⟩
        have hy := hfirst.behind y (by rw [h.split, List.getLast?_eq_none_iff.mp hlast]; rfl)
        rw [h.inside y List.mem_cons_self] at hy
        exact Bool.noConfusion hy

/-- The runs of a list are its maximal runs. -/
theorem mem_runsWhere_iff (row : Nat) (xs : List α) (run : Nat × Nat) :
    run ∈ runsWhere p row xs ↔ ∃ front rows back, Maximal p xs front rows back ∧
      run = (row + front.length, row + front.length + rows.length - 1) := by
  induction row, xs using runsWhere_induction p with
  | none row xs hno =>
      refine ⟨fun hrun => absurd hrun List.not_mem_nil, ?_⟩
      rintro ⟨front, rows, back, h, _⟩
      rcases List.exists_cons_of_ne_nil h.nonempty with ⟨y, more, rfl⟩
      have hy := hno y (by rw [h.split]; simp)
      rw [h.inside y List.mem_cons_self] at hy
      exact Bool.noConfusion hy
  | first row as ys zs runs hfirst has ih =>
      have hbehind : ∀ mid : List α,
          row + (as ++ ys ++ mid).length = row + (as ++ ys).length + mid.length := by
        intro mid
        rw [List.length_append, Nat.add_assoc row]
      rw [List.mem_cons, ih]
      constructor
      · rintro (rfl | ⟨mid, rows, back, h, rfl⟩)
        · exact ⟨as, ys, zs, hfirst, rfl⟩
        · refine ⟨as ++ ys ++ mid, rows, back, Maximal.later p as ys zs mid rows back hfirst h, ?_⟩
          rw [hbehind]
      · rintro ⟨front, rows, back, h, rfl⟩
        rcases Maximal.first_or_later p as ys zs front rows back has hfirst h with
          ⟨rfl, rfl⟩ | ⟨mid, rfl, hlater⟩
        · exact Or.inl rfl
        · refine Or.inr ⟨mid, rows, back, hlater, ?_⟩
          rw [hbehind]

/-- The runs of a list come in order, with an entry between any two of them. -/
theorem pairwise_runsWhere (row : Nat) (xs : List α) :
    (∀ run ∈ runsWhere p row xs, row ≤ run.1) ∧
      (runsWhere p row xs).Pairwise fun a b => a.2 < b.1 := by
  induction row, xs using runsWhere_induction p with
  | none row xs _ => exact ⟨fun run hrun => absurd hrun List.not_mem_nil, List.Pairwise.nil⟩
  | first row as ys zs runs hfirst _ ih =>
      have hpos : 0 < ys.length := List.length_pos_iff.mpr hfirst.nonempty
      rw [List.length_append] at ih
      refine ⟨fun run hrun => ?_, List.pairwise_cons.mpr ⟨fun run hrun => ?_, ih.2⟩⟩
      · rcases List.mem_cons.mp hrun with rfl | hrun
        · exact Nat.le_add_right row as.length
        · have hle := ih.1 run hrun
          omega
      · have hle := ih.1 run hrun
        dsimp only
        omega

end Runs

namespace Pass

/-- Rows of a node that are not live, as many as there are next to each other. -/
def IsDead (live : Snapshot) (s : Store) (r : RowRun) : Prop :=
  ∃ front back, r.first = front.length ∧
    Maximal (fun c => !live.contains c) (s.children r.node) front r.handles back

/-- Such rows under a node that is live with all nodes it is recorded under. -/
structure DeadRun (live : Snapshot) (s : Store) (r : RowRun) : Prop where
  path : ∀ x, Under s.parent r.node x → live.contains x = true
  rows : IsDead live s r

/-- One run goes before another: it is behind it in the same rows, and it is not
    above it. -/
structure Precedes (s : Store) (a b : RowRun) : Prop where
  down : a.node = b.node → b.first + b.handles.length ≤ a.first
  up : Under s.parent b.node a.node → b.node = a.node

/-- The runs under one node are the maximal runs of its dead children. -/
theorem mem_ofRows_iff (live : Snapshot) (s : Store) (node : Handle) (r : RowRun) :
    r ∈ (runsWhere (fun c => !live.contains c) 0 (s.children node)).reverse.map
        (RowRun.ofRows node (s.children node)) ↔ r.node = node ∧ IsDead live s r := by
  rw [List.mem_map]
  have hrows : ∀ front rows back,
      Maximal (fun c => !live.contains c) (s.children node) front rows back →
      RowRun.ofRows node (s.children node) (front.length, front.length + rows.length - 1) =
        ⟨node, front.length, rows⟩ := by
    intro front rows back h
    rw [h.split, RowRun.ofRows_eq node front rows back h.nonempty]
  constructor
  · rintro ⟨run, hrun, rfl⟩
    rcases (mem_runsWhere_iff _ 0 _ run).mp (List.mem_reverse.mp hrun) with
      ⟨front, rows, back, h, rfl⟩
    rw [Nat.zero_add, hrows front rows back h]
    exact ⟨rfl, front, back, rfl, h⟩
  · rintro ⟨rfl, front, back, hfirst, h⟩
    refine ⟨_, List.mem_reverse.mpr ((mem_runsWhere_iff _ 0 _ _).mpr
      ⟨front, r.handles, back, h, rfl⟩), ?_⟩
    rw [Nat.zero_add, hrows front r.handles back h, ← hfirst]

section Sweep

variable (live : Snapshot) (s : Store) (hs : s.Sound)

include hs

/-- The sweep below a node comes to maximal runs of dead rows only, on live paths. -/
theorem of_mem_deadRows (depth : Nat) (node : Handle) (r : RowRun)
    (hr : r ∈ deadRows live s.children depth node) :
    Under s.parent r.node node ∧ IsDead live s r ∧
      ∀ x, Under s.parent r.node x → Under s.parent x node → x ≠ node → live.contains x = true := by
  induction depth generalizing node with
  | zero => exact absurd hr List.not_mem_nil
  | succ depth ih =>
      rw [deadRows, List.mem_append] at hr
      rcases hr with hr | hr
      · rcases List.mem_flatMap.mp hr with ⟨c, hc, hrc⟩
        rcases List.mem_filter.mp hc with ⟨hcn, hlive⟩
        rw [hs.tree.mem_kids] at hcn
        rcases ih c hrc with ⟨hu, hdead, hpath⟩
        refine ⟨hu.trans (Under.of_up hcn), hdead, fun x hx hxn hne => ?_⟩
        -- The path to the node leads through the child.
        rcases Forest.under_total hx hu with hxc | hcx
        · by_cases he : x = c
          · exact he ▸ hlive
          · exact hpath x hx hxc he
        · rcases (Forest.under_iff_up c x).mp hcx with rfl | ⟨q, hq, hqx⟩
          · exact hlive
          · rw [hcn, Option.some.injEq] at hq
            exact absurd (hs.tree.under_antisymm x node hxn (hq ▸ hqx)) hne
      · rcases (mem_ofRows_iff live s node r).mp hr with ⟨rfl, hdead⟩
        exact ⟨Under.refl _, hdead, fun x hx hxn hne =>
          absurd (hs.tree.under_antisymm x r.node hxn hx) hne⟩

/-- The sweep below a node comes to all of them, if it may go deep enough. -/
theorem mem_deadRows (depth : Nat) (node : Handle) (hdepth : Forest.weight s.parent node ≤ depth)
    (r : RowRun) (hu : Under s.parent r.node node) (hdead : IsDead live s r)
    (hpath : ∀ x, Under s.parent r.node x → Under s.parent x node → x ≠ node →
      live.contains x = true) : r ∈ deadRows live s.children depth node := by
  induction depth generalizing node with
  | zero =>
      have hpos := Forest.weight_pos s.parent node
      omega
  | succ depth ih =>
      rw [deadRows, List.mem_append]
      rcases (hs.tree.under_iff_kid r.node node).mp hu with rfl | ⟨c, hc, hrc⟩
      · exact Or.inr ((mem_ofRows_iff live s r.node r).mpr ⟨rfl, hdead⟩)
      · have hcn := (hs.tree.mem_kids node c).mp hc
        have hne : ∀ x, Under s.parent x c → x ≠ node := by
          rintro x hxc rfl
          exact hs.tree.acyclic c x hcn hxc
        have hlt := hs.tree.weight_lt c node hcn
        have hlive := hpath c hrc (Under.of_up hcn) (hne c (Under.refl c))
        refine Or.inl (List.mem_flatMap.mpr ⟨c, List.mem_filter.mpr ⟨hc, hlive⟩, ?_⟩)
        exact ih c (by omega) hrc fun x hx hxc _ =>
          hpath x hx (hxc.trans (Under.of_up hcn)) (hne x hxc)

/-- The runs below a node go in order. -/
theorem pairwise_deadRows (depth : Nat) (node : Handle) :
    (deadRows live s.children depth node).Pairwise (Precedes s) := by
  induction depth generalizing node with
  | zero => exact List.Pairwise.nil
  | succ depth ih =>
      have hkid : ∀ c ∈ (s.children node).filter live.contains, s.parent c = some node :=
        fun c hc => (hs.tree.mem_kids node c).mp (List.mem_of_mem_filter hc)
      rw [deadRows]
      refine List.pairwise_append.mpr ⟨List.pairwise_flatMap.mpr ⟨fun c _ => ih c, ?_⟩, ?_, ?_⟩
      · -- What is under one child is not above and not below what is under another.
        refine ((hs.tree.nodup node).filter _).imp_of_mem fun {c d} hc hd hne a ha b hb => ?_
        have hac := (of_mem_deadRows live s hs depth c a ha).1
        have hbd := (of_mem_deadRows live s hs depth d b hb).1
        have hapart := hs.tree.siblings_apart c d node b.node (hkid c hc) (hkid d hd) hne
        exact ⟨fun he => absurd hbd (hapart (he ▸ hac)),
          fun hu => absurd hbd (hapart (hu.trans hac))⟩
      · -- The runs of one node go from the highest row down.
        refine List.pairwise_map.mpr (List.pairwise_reverse.mpr ?_)
        refine (pairwise_runsWhere _ 0 (s.children node)).2.imp_of_mem fun {a b} ha _ hlt => ?_
        rcases (mem_runsWhere_iff _ 0 _ a).mp ha with ⟨front, rows, back, hmax, rfl⟩
        have hpos : 0 < rows.length := List.length_pos_iff.mpr hmax.nonempty
        refine ⟨fun _ => ?_, fun _ => rfl⟩
        simp only [RowRun.ofRows, List.length_take] at hlt ⊢
        omega
      · -- What is under a child goes before what is under the node itself.
        intro a ha b hb
        rcases List.mem_flatMap.mp ha with ⟨c, hc, hac⟩
        have hu := (of_mem_deadRows live s hs depth c a hac).1
        have hb' := ((mem_ofRows_iff live s node b).mp hb).1
        have hno := hs.tree.acyclic c node (hkid c hc)
        refine ⟨fun he => absurd (he.trans hb' ▸ hu) hno, fun hba => ?_⟩
        exact absurd ((hb' ▸ hba).trans hu) hno

end Sweep

section Later

variable (live : Snapshot) (hlive : live.Proper)

include hlive

/-- An act on a record of live nodes leaves one, and takes live rows only. -/
theorem Act.removed_live (s t : Store) (trace : List Notice) (h : Act live s trace t)
    (hs : Fits live s) :
    Fits live t ∧ ∀ n ∈ trace, ∀ x ∈ n.removed, live.contains x = true := by
  have hkid : ∀ i front rows back, s.children i.node = front ++ rows ++ back → rows ≠ [] →
      ∀ x ∈ s.rowsAt (some i) front.length (front.length + rows.length - 1),
        live.contains x = true := by
    intro i front rows back hkids hne x hx
    rw [s.rowsAt_eq i front rows back hkids hne] at hx
    refine hs.live x ((s.contains_iff x).mpr (Or.inr ⟨i.node, ?_⟩))
    rw [← hs.sound.tree.mem_kids, hkids]
    exact List.mem_append_left back (List.mem_append_right front hx)
  cases h with
  | removal _ i front rows back gone hspare hcut _ =>
      refine ⟨hs.cut live s t _ hcut, fun n hn x hx => ?_⟩
      rcases List.mem_append.mp hn with hn | hn
      · exact hkid i front rows back hspare.kids hspare.nonempty x
          (removed_removal i _ _ s t ▸ List.mem_flatMap.mpr ⟨n, hn, hx⟩)
      · rcases List.mem_map.mp hn with ⟨_, _, rfl⟩
        exact absurd hx List.not_mem_nil
  | move _ i j h front back front' back' hst hrows hrows' ht hroot hup =>
      refine ⟨⟨ht, hroot.trans hs.root, fun x hx => ?_⟩, fun n hn x hx => ?_⟩
      · rw [t.contains_iff, hroot, hup] at hx
        by_cases he : h = x
        · exact he ▸ hs.live h hst.tracked
        · rw [if_neg he, ← s.contains_iff] at hx
          exact hs.live x hx
      · rcases List.mem_append.mp hn with hn | hn
        · exact hkid i front [h] back hrows (List.cons_ne_nil h []) x
            (removed_removal i _ _ s _ ▸ List.mem_flatMap.mpr ⟨n, hn, hx⟩)
        · rw [List.flatMap_eq_nil_iff.mp (removed_insertion j _ _ _ t) n hn] at hx
          exact absurd hx List.not_mem_nil
  | insertion _ i front batch back hfresh hpl hkids =>
      have hadv := advances_of_planted live hlive i.node batch s t hpl hfresh.new hfresh.parent
        hfresh.below
      refine ⟨hs.advance live s t hlive i.node hpl.sound hadv, fun n hn x hx => ?_⟩
      rw [List.flatMap_eq_nil_iff.mp (removed_insertion i _ _ s t) n hn] at hx
      exact absurd hx List.not_mem_nil

/-- So does a course of acts. -/
theorem Course.removed_live (s t : Store) (trace : List Notice) (h : Course live s trace t)
    (hs : Fits live s) : ∀ n ∈ trace, ∀ x ∈ n.removed, live.contains x = true := by
  induction h with
  | nil s => exact fun n hn => absurd hn List.not_mem_nil
  | cons s t u trace rest act _ ih =>
      rcases act.removed_live live hlive s t trace hs with ⟨ht, htrace⟩
      intro n hn
      rcases List.mem_append.mp hn with hn | hn
      · exact htrace n hn
      · exact ih ht n hn

end Later

section Root

variable (s : Store) (live : Snapshot)

/-- From the root the sweep comes to all dead runs of the record. -/
theorem mem_deadRows_root (hs : s.Sound) (hlive : live.Proper) (hroot : s.root = live.root)
    (r : RowRun) :
    r ∈ s.root.toList.flatMap (deadRows live s.children s.size) ↔ DeadRun live s r := by
  rw [List.mem_flatMap]
  constructor
  · rintro ⟨top, htop, hr⟩
    have htop' := Option.mem_toList.mp htop
    rcases of_mem_deadRows live s hs s.size top r hr with ⟨hu, hdead, hpath⟩
    refine ⟨fun x hx => ?_, hdead⟩
    have hxt : Under s.parent x top := by
      rcases Forest.under_total hx hu with h | h
      · exact h
      · rw [Forest.eq_of_under_top (hs.tree.root_up top htop') h]
        exact Under.refl top
    by_cases he : x = top
    · exact (hlive.contains_iff x).mpr (Or.inl (he ▸ hroot ▸ htop'))
    · exact hpath x hx hxt he
  · rintro ⟨hpath, front, back, hfirst, hmax⟩
    -- A node with children is tracked, and lies under the root.
    rcases List.exists_mem_of_ne_nil r.handles hmax.nonempty with ⟨v, hv⟩
    have hvp : s.parent v = some r.node := by
      rw [← hs.tree.mem_kids, hmax.split]
      exact List.mem_append_left back (List.mem_append_right front hv)
    rcases hs.tree.held_under_root r.node (hs.tree.held_up v r.node hvp) with ⟨top, htop, hu⟩
    have hweight := s.weight_le_size top ((s.contains_iff top).mpr (Or.inl htop))
    exact ⟨top, Option.mem_toList.mpr htop, mem_deadRows live s hs s.size top hweight r hu
      ⟨front, back, hfirst, hmax⟩ fun x hx _ _ => hpath x hx⟩

/-- From the root the runs go in order, each of them once. -/
theorem pairwise_deadRows_root (hs : s.Sound) :
    (s.root.toList.flatMap (deadRows live s.children s.size)).Pairwise (Precedes s) := by
  cases s.root with
  | none => exact List.Pairwise.nil
  | some top =>
      rw [Option.toList_some, List.flatMap_singleton]
      exact pairwise_deadRows live s hs s.size top

/-- The script of a pass that keeps the root has two parts. The first part removes the
    maximal runs of dead rows under live paths, all of them, each once, and in
    order. The second part removes no dead row. -/
theorem run_dead_rows (hs : s.check = none) (hlive : live.Built) (hroot : s.root = live.root)
    (isStrict : Bool) :
    ∃ (s' : Step) (sweep rest : List Notice) (runs : List RowRun),
      run isStrict live { store := s } = .ok s' ∧ s'.trace = sweep ++ rest ∧
      s'.report.script = runs.map RowRun.edit ++ rest.filterMap Notice.edit ∧
      sweep.filterMap Notice.taken = runs.map RowRun.taken ∧
      (∀ r, r ∈ runs ↔ DeadRun live s r) ∧ runs.Nodup ∧ runs.Pairwise (Precedes s) ∧
      ∀ n ∈ rest, ∀ x ∈ n.removed, live.contains x = true := by
  have hproper := hlive.proper live
  have hsound := s.check_eq_none_iff_sound.mp hs
  rcases run_sweeps live hproper { store := s } hsound hroot with
    ⟨s₁, s', hrun, hworks₁, hworks₂, hfits, ⟨sweep, hsweep, htaken⟩, _⟩
  rcases hworks₂.course with ⟨rest, hrest, hcourse, _⟩
  rcases (hworks₁.trans live _ _ _ hworks₂).course with ⟨trace, htrace, _, hbooked⟩
  rw [List.nil_append] at hsweep htrace
  rw [hsweep] at hrest
  have hruns := mem_deadRows_root s live hsound hproper hroot
  have hpairwise := pairwise_deadRows_root s live hsound
  refine ⟨s', sweep, rest, _, hrun isStrict, hrest, ?_, htaken, hruns, ?_, hpairwise,
    hcourse.removed_live live hproper _ _ rest hfits⟩
  · have hscript : s'.report.script = trace.filterMap Notice.edit := hbooked.script
    rw [hscript, ← htrace, hrest, List.filterMap_append, ← map_fst_taken sweep, htaken,
      List.map_map]
    rfl
  · -- A run does not go before itself, because it is not empty.
    refine hpairwise.imp_of_mem fun {a b} ha _ hab he => ?_
    rcases ((hruns a).mp ha).rows with ⟨_, _, _, hmax⟩
    have hpos := List.length_pos_iff.mpr hmax.nonempty
    have hdown := hab.down (congrArg RowRun.node he)
    rw [← he] at hdown
    omega

end Root

/-- A node with five children, one of which has two. -/
def fiveAndTwo : Store :=
  let five := [2, 3, 4, 5, 8].foldl (fun s n => s.link ⟨1⟩ ⟨n⟩) (Store.ofRoot (some ⟨1⟩))
  (five.link ⟨5⟩ ⟨6⟩).link ⟨5⟩ ⟨7⟩

-- Two of the five and a new one are live.
theorem run_dead_rows_of_sparse :
    let live := Snapshot.ofEdges ⟨1⟩ ([2, 5, 9].map fun n => (⟨1⟩, ⟨n⟩))
    fiveAndTwo.check = none ∧ fiveAndTwo.root = live.root ∧
      ∃ (s' : Step) (sweep rest : List Notice) (runs : List RowRun),
        run true live { store := fiveAndTwo } = .ok s' ∧ s'.trace = sweep ++ rest ∧
        s'.report.script =
          [.remove ⟨5⟩ 0 1, .remove ⟨1⟩ 4 4, .remove ⟨1⟩ 1 2, .insert ⟨1⟩ 2 [⟨9⟩]] ∧
        s'.report.script = runs.map RowRun.edit ++ rest.filterMap Notice.edit ∧
        sweep.filterMap Notice.taken = runs.map RowRun.taken ∧
        (∀ r, r ∈ runs ↔ DeadRun live fiveAndTwo r) ∧ runs.Nodup ∧
        runs.Pairwise (Precedes fiveAndTwo) ∧
        ∀ n ∈ rest, ∀ x ∈ n.removed, live.contains x = true := by
  intro live
  have hcheck : fiveAndTwo.check = none := by decide +kernel
  have hroot : fiveAndTwo.root = live.root := by decide +kernel
  have hscript : (run true live { store := fiveAndTwo }).toOption.map (·.report.script) =
      some [.remove ⟨5⟩ 0 1, .remove ⟨1⟩ 4 4, .remove ⟨1⟩ 1 2, .insert ⟨1⟩ 2 [⟨9⟩]] := by
    decide +kernel
  rcases run_dead_rows fiveAndTwo live hcheck (.ofEdges ⟨1⟩ _) hroot true with
    ⟨s', sweep, rest, runs, hrun, htrace, hparts⟩
  rw [hrun] at hscript
  exact ⟨hcheck, hroot, s', sweep, rest, runs, hrun, htrace, Option.some.inj hscript, hparts⟩

end Pass

end TreeWatch
