import Mathlib.Data.List.TakeWhile
import TreeWatch.Pass
import TreeWatch.Proofs.Acts

/-!
# The Second Sweep

The merge of the recorded children of a node with its live ones goes from left
to right. At every moment the recorded list starts with the live children that
were dealt with, which are finished with all below them, and goes on with
recorded children that were not looked at yet (`Merging`). The number of the
former is the row the merge works at, so the row is right at every moment by
construction, whatever the recursion below took out of the rest of the list.

Each way the merge can go on leads from one such moment to a later one: the
recorded children that the wanted one has passed are removed
(`Merging.pass`), the wanted child is moved here (`Merging.relocate`) or is
inserted with others like it (`Merging.insert`), and a child that is in its
row is swept in turn (`Merging.descend`). What is removed is never in place:
a node that is in place has its live parent, and the live children of the node
in question are dealt with or still wanted.

When a merge is over the node has its live children and nothing is left to
settle, so a strict sweep and one that repairs do the same.

## Main definitions

* `Pass.Merging`: A moment of the merge of two child lists.
* `Pass.Descends`: What the sweep below a child does.

## Theorems

* `Pass.chooseBatch_spec`: The choice of a batch comes to an end.
* `Pass.mergeChildren_spec`: A merge leaves the live children in front.
* `Pass.diffNode_spec`: The sweep below a node finishes all nodes below it.
-/

namespace TreeWatch

open Forest (Under under_iff_up)

namespace Pass

/-- A moment of the merge below `node`: its live children are `done` and
    `wanted`, its recorded ones `done` and `tail`, and what is `done` is
    finished with all below it. -/
structure Merging (live : Snapshot) (node : Handle) (done wanted tail : List Handle) (s : Store) :
    Prop where
  fits : Fits live s
  is_live : live.contains node = true
  placed : Placed live s node
  wanted_eq : live.children node = done ++ wanted
  kids_eq : s.children node = done ++ tail
  finished : ∀ c ∈ done, ∀ x, Under live.parent x c → Finished live s x

section Merge

variable (live : Snapshot) (hlive : live.Proper) (node : Handle) (done wanted tail : List Handle)
  (s : Step) (hm : Merging live node done wanted tail s.store)

include hlive hm

theorem Merging.tracked : s.store.contains node = true :=
  hm.fits.tracked_of_placed live s.store hlive node hm.placed hm.is_live

-- A child of the node that is placed is dealt with or still wanted.
theorem Merging.mem_of_placed (c : Handle) (hc : s.store.parent c = some node)
    (hp : Placed live s.store c) : c ∈ done ++ wanted := by
  rw [← hm.wanted_eq, hlive.tree.mem_kids, ← hp c (Under.refl c), hc]

theorem Merging.parent_done (c : Handle) (hc : c ∈ done) : live.parent c = some node := by
  rw [← hlive.tree.mem_kids, hm.wanted_eq]
  exact List.mem_append_left wanted hc

omit hlive in
-- The row the merge works at is that of the first recorded child not looked at.
theorem Merging.next_row : (s.store.children node)[done.length]? = tail[0]? := by
  rw [hm.kids_eq, List.getElem?_append_right (Nat.le_refl _), Nat.sub_self]

omit hlive in
-- The recorded children come in order.
theorem Merging.ascending_kids : Handle.Ascending (done ++ tail) :=
  hm.kids_eq ▸ hm.fits.sound.ascending node

/-- A change that advances and gives the node no new child leads to a later
    moment of the merge. -/
theorem Merging.advance (t : Store) (d : Handle) (ht : t.Sound) (hadv : Advances live d s.store t)
    (hnew : ∀ c, t.parent c = some node → s.store.parent c = some node) :
    ∃ tail', Merging live node done wanted tail' t ∧ ∀ x ∈ tail', x ∈ tail := by
  have hfin : ∀ c ∈ done, ∀ x, Under live.parent x c → Finished live t x := by
    intro c hc x hx
    exact (hm.finished c hc x hx).advance live s.store t hlive d x hm.fits.sound ht hadv
  rcases children_front live s.store t hm.fits.sound ht node done tail hm.kids_eq
    (fun c hc => ⟨hm.parent_done live hlive node done wanted tail s c hc,
      (hfin c hc c (Under.refl c)).1⟩) hnew with ⟨tail', hkids, hsub⟩
  exact ⟨tail', ⟨hm.fits.advance live s.store t hlive d ht hadv, hm.is_live,
    hadv.placed node hm.placed, hm.wanted_eq, hkids, hfin⟩, hsub⟩

/-- Removing the next recorded children, none of them wanted, leads to a later
    moment of the merge. -/
theorem Merging.remove (rows back : List Handle) (htail : tail = rows ++ back)
    (hne : rows ≠ []) (hrows : ∀ v ∈ rows, v ∉ wanted) :
    ∃ s', s.removeRows live.contains node done.length (done.length + rows.length - 1) = .ok s' ∧
      Works live s s' ∧ Advances live node s.store s'.store ∧
      Merging live node done wanted back s'.store := by
  have hs := hm.fits.sound
  have hkids : s.store.children node = done ++ rows ++ back := by
    rw [hm.kids_eq, htail, List.append_assoc]
  have hnd := hs.tree.nodup node
  rw [hkids] at hnd
  have hparent : ∀ v ∈ rows, s.store.parent v = some node := by
    intro v hv
    rw [← hs.tree.mem_kids, hkids]
    exact List.mem_append_left _ (List.mem_append_right _ hv)
  -- The row above a placed node would be placed, too, and so dealt with.
  have hspare : Spare live s.store node done rows back := by
    refine ⟨hs, hm.tracked live hlive node done wanted tail s, hne, hkids, fun y hy hg => ?_⟩
    rcases hg with ⟨v, hv, hu⟩
    have hvp := Placed.above live s.store y v hy ((hy.under_iff live s.store y v).mp hu)
    have hmem := hm.mem_of_placed live hlive node done wanted tail s v (hparent v hv) hvp
    rcases List.mem_append.mp hmem with hd | hw
    · exact List.disjoint_of_nodup_append (List.Nodup.of_append_left hnd) hd hv
    · exact hrows v hv hw
  rcases hspare.removeRows live s node done rows back with ⟨s', hrun, hworks, hcut, _⟩
  have hadv := advances_of_cut live s.store s'.store node _ hcut hspare.unplaced
  rcases hm.advance live hlive node done wanted tail s s'.store node hworks.sound hadv
    fun c hc => (hcut.links.up_of_up c node hc).1 with ⟨tail', hm', _⟩
  have hback := hcut.children_rows hs node done rows back hkids
    (hs.under_rows_iff s.store node rows hparent)
  rw [hm'.kids_eq] at hback
  exact ⟨s', hrun, hworks, hadv, List.append_cancel_left hback ▸ hm'⟩

end Merge

section Next

variable (live : Snapshot) (hlive : live.Proper) (node h : Handle) (done rest tail : List Handle)
  (s : Step) (hm : Merging live node done (h :: rest) tail s.store)

include hlive hm

theorem Merging.parent_next : live.parent h = some node := by
  rw [← hlive.tree.mem_kids, hm.wanted_eq]
  exact List.mem_append_right done List.mem_cons_self

-- The live children come in order.
theorem Merging.ascending_wanted : Handle.Ascending (done ++ h :: rest) :=
  hm.wanted_eq ▸ hlive.ascending node

/-- The recorded children that the wanted one has passed are removed, and those
    that are left do not come before it. -/
theorem Merging.pass :
    ∃ s' tail', (if (tail.takeWhile (· < h)).isEmpty then .ok s
        else s.removeRows live.contains node done.length
          (done.length + (tail.takeWhile (· < h)).length - 1)) = .ok s' ∧
      Works live s s' ∧ Advances live node s.store s'.store ∧
      Merging live node done (h :: rest) tail' s'.store ∧ ∀ x ∈ tail', h ≤ x := by
  have hsplit := (List.takeWhile_append_dropWhile (p := (· < h)) (l := tail)).symm
  have hasc := hm.ascending_kids live node done (h :: rest) tail s
  have hdrop := Handle.le_of_mem_dropWhile h tail (List.pairwise_append.mp hasc).2.1
  -- The wanted children are not smaller than the first of them.
  have hpassed : ∀ v ∈ tail.takeWhile (· < h), v ∉ h :: rest := by
    intro v hv hw
    have hlt : v < h := of_decide_eq_true (List.mem_takeWhile_imp (p := (· < h)) hv)
    have hwanted :=
      (List.pairwise_append.mp (hm.ascending_wanted live hlive node h done rest tail s)).2.1
    rcases List.mem_cons.mp hw with rfl | hw
    · exact lt_irrefl v hlt
    · exact lt_asymm hlt ((List.pairwise_cons.mp hwanted).1 v hw)
  by_cases hempty : (tail.takeWhile (· < h)).isEmpty = true
  · rw [if_pos hempty]
    refine ⟨s, tail, rfl, Works.refl live s hm.fits.sound, Advances.refl live s.store node, hm, ?_⟩
    rw [hsplit, List.isEmpty_iff.mp hempty, List.nil_append]
    exact hdrop
  · rw [if_neg hempty]
    rcases hm.remove live hlive node done (h :: rest) tail s _ _ hsplit
      (mt List.isEmpty_iff.mpr hempty) hpassed with ⟨s', hrun, hworks, hadv, hm'⟩
    exact ⟨s', _, hrun, hworks, hadv, hm', hdrop⟩

/-- A wanted child that is tracked elsewhere may be moved. -/
theorem Merging.stray (htail : ∀ x ∈ tail, h < x) (hh : s.store.contains h = true) :
    Stray live s.store h node := by
  have hlh := hm.parent_next live hlive node h done rest tail s
  -- The wanted child is neither dealt with nor among the recorded children.
  refine ⟨hm.fits, hm.placed, hlh, hh, fun hp => ?_⟩
  rw [← hm.fits.sound.tree.mem_kids, hm.kids_eq] at hp
  rcases List.mem_append.mp hp with hd | ht
  · have hasc := hm.ascending_wanted live hlive node h done rest tail s
    exact lt_irrefl h ((List.pairwise_append.mp hasc).2.2 h hd h List.mem_cons_self)
  · exact lt_irrefl h (htail h ht)

/-- It is moved to its row. -/
theorem Merging.relocate (htail : ∀ x ∈ tail, h < x) (hh : s.store.contains h = true) :
    ∃ s', s.relocate h node = .ok (true, s') ∧ Works live s s' ∧
      Advances live node s.store s'.store ∧
      Merging live node done (h :: rest) (h :: tail) s'.store := by
  have hs := hm.fits.sound
  have hst := hm.stray live hlive node h done rest tail s htail hh
  have hlh := hst.parent
  rcases hst.relocate live s hlive h node with ⟨s', hrun, hworks, hroot', hup⟩
  have hadv : Advances live node s.store s'.store := by
    refine ⟨hroot', fun y hy a ha => ?_, fun c p hc => ?_⟩
    · rw [hup]
      by_cases hah : h = a
      · rw [if_pos hah, ← hah, hlh]
      · rw [if_neg hah, hy a ha]
    · rw [hup] at hc
      by_cases hch : h = c
      · rw [if_pos hch, Option.some.injEq] at hc
        subst hch hc
        exact Or.inr ⟨hlh, Under.refl node⟩
      · rw [if_neg hch] at hc
        exact Or.inl hc
  -- The child comes after the live ones before it and before all that follow.
  have hasc : Handle.Ascending (done ++ h :: tail) := by
    have hold := hm.ascending_kids live node done (h :: rest) tail s
    rcases List.pairwise_append.mp hold with ⟨hdone, htailasc, hcross⟩
    have hfront := List.pairwise_append.mp (hm.ascending_wanted live hlive node h done rest tail s)
    refine List.pairwise_append.mpr ⟨hdone, List.pairwise_cons.mpr ⟨htail, htailasc⟩, ?_⟩
    intro c hc x hx
    rcases List.mem_cons.mp hx with rfl | hx
    · exact hfront.2.2 c hc x List.mem_cons_self
    · exact hcross c hc x hx
  have hkids : s'.store.children node = done ++ h :: tail := by
    refine hworks.sound.children_eq s'.store node _ hasc fun c => ?_
    have hold : c ∈ done ++ tail ↔ s.store.parent c = some node := by
      rw [← hm.kids_eq, hs.tree.mem_kids]
    rw [hup]
    by_cases hch : h = c
    · simp only [hch, List.mem_append, List.mem_cons, true_or, or_true, if_true]
    · rw [if_neg hch, ← hold, List.mem_append, List.mem_append, List.mem_cons]
      simp only [Ne.symm hch, false_or]
  refine ⟨s', hrun, hworks, hadv,
    hm.fits.advance live s.store s'.store hlive node hworks.sound hadv,
    hm.is_live, hadv.placed node hm.placed, hm.wanted_eq, hkids, fun c hc x hx => ?_⟩
  exact (hm.finished c hc x hx).advance live s.store s'.store hlive node x hs hworks.sound hadv

end Next

/-- The sweep below `h` finishes all nodes below it, whichever of the variants
    of the sweep is taken. -/
def Descends (live : Snapshot) (descend : Bool → Handle → Step → Except Fault Step) (h : Handle) :
    Prop :=
  ∀ s : Step, Fits live s.store → live.contains h = true → Placed live s.store h →
    ∃ s', (∀ b, descend b h s = .ok s') ∧ Works live s s' ∧ Advances live h s.store s'.store ∧
      ∀ x, Under live.parent x h → Finished live s'.store x

section Next

variable (live : Snapshot) (hlive : live.Proper) (node h : Handle) (done rest tail : List Handle)
  (s : Step)

include hlive

/-- A child that is in its row is swept in turn, and is dealt with then. The
    sweep makes links below the child only, so the node gets no new child. -/
theorem Merging.descend (descend : Bool → Handle → Step → Except Fault Step)
    (hm : Merging live node done (h :: rest) (h :: tail) s.store)
    (hdescend : Descends live descend h) :
    ∃ s' tail', (∀ b, descend b h s = .ok s') ∧ Works live s s' ∧
      Advances live node s.store s'.store ∧
      Merging live node (done ++ [h]) rest tail' s'.store := by
  have hs := hm.fits.sound
  have hlh := hm.parent_next live hlive node h done rest (h :: tail) s
  have hsh : s.store.parent h = some node := by
    rw [← hs.tree.mem_kids, hm.kids_eq]
    exact List.mem_append_right done List.mem_cons_self
  have hplaced := Placed.child live s.store h node hm.placed hlh hsh
  rcases hdescend s hm.fits (hlive.contains_of_parent live h node hlh).1 hplaced with
    ⟨s', hrun, hworks, hadv, hfin⟩
  have hadv' := hadv.mono live s.store s'.store h node (Under.of_up hlh)
  -- New links are below the child, and the node is not.
  have hnew : ∀ c, s'.store.parent c = some node → s.store.parent c = some node := by
    intro c hc
    rcases hadv.links c node hc with hc | ⟨_, hu⟩
    · exact hc
    · exact absurd hu (hlive.tree.acyclic h node hlh)
  have hfront : ∀ c ∈ done ++ [h], live.parent c = some node ∧ Placed live s'.store c := by
    intro c hc
    rcases List.mem_append.mp hc with hc | hc
    · refine ⟨hm.parent_done live hlive node done _ _ s c hc, hadv.placed c ?_⟩
      exact (hm.finished c hc c (Under.refl c)).1
    · rw [List.mem_singleton] at hc
      exact hc ▸ ⟨hlh, hadv.placed h hplaced⟩
  have hkids : s.store.children node = (done ++ [h]) ++ tail := by
    rw [hm.kids_eq, List.append_assoc, List.singleton_append]
  rcases children_front live s.store s'.store hs hworks.sound node (done ++ [h]) tail hkids hfront
    hnew with ⟨tail', hkids', _⟩
  refine ⟨s', tail', hrun, hworks, hadv', hm.fits.advance live s.store s'.store hlive h hworks.sound
    hadv, hm.is_live, hadv.placed node hm.placed, ?_, hkids', fun c hc x hx => ?_⟩
  · rw [hm.wanted_eq, List.append_assoc, List.singleton_append]
  · rcases List.mem_append.mp hc with hc | hc
    · exact (hm.finished c hc x hx).advance live s.store s'.store hlive h x hs hworks.sound hadv
    · rw [List.mem_singleton] at hc
      exact hfin x (hc ▸ hx)

end Next

section Planting

variable (live : Snapshot) (hlive : live.Proper) (node : Handle) (batch : List Handle) (s t : Store)
  (hpl : Store.Planted live node s batch t) (hnew : ∀ b ∈ batch, s.contains b = false)
  (hkid : ∀ b ∈ batch, live.parent b = some node)
  (hbelow : ∀ v ∈ batch.flatMap live.descendants, s.contains v = false)

include hlive hpl hnew hkid hbelow

/-- What lies under an inserted child was new and has its live parent now. -/
theorem link_of_planted (b x : Handle) (hb : b ∈ batch) (hx : Under live.parent x b) :
    s.contains x = false ∧ t.parent x = live.parent x := by
  by_cases hxb : x ∈ batch
  · exact ⟨hnew x hxb, (hpl.top x hxb (hnew x hxb)).trans (hkid x hxb).symm⟩
  · have hxd : x ∈ live.descendants b := by
      refine (hlive.mem_descendants_iff_ne live b x).mpr ⟨?_, hx⟩
      rintro rfl
      exact hxb hb
    have hsx := hbelow x (List.mem_flatMap.mpr ⟨b, hb, hxd⟩)
    exact ⟨hsx, hpl.below b hb x hxd hsx hxb⟩

/-- Whatever is new lies under an inserted child. -/
theorem under_of_planted (c p : Handle) (hsc : s.contains c = false) (hc : t.parent c = some p) :
    live.parent c = some p ∧ ∃ b ∈ batch, Under live.parent c b := by
  have hexists : ∃ b ∈ batch, Under live.parent c b := by
    rcases (hpl.contains_iff c).mp ((t.contains_iff c).mpr (Or.inr ⟨p, hc⟩)) with
      hsc' | hcb | ⟨b, hb, hcd⟩
    · rw [hsc] at hsc'
      exact absurd hsc' Bool.false_ne_true
    · exact ⟨c, hcb, Under.refl c⟩
    · exact ⟨b, hb, ((hlive.mem_descendants_iff_ne live b c).mp hcd).2⟩
  rcases hexists with ⟨b, hb, hu⟩
  have hlink := (link_of_planted live hlive node batch s t hpl hnew hkid hbelow b c hb hu).2
  exact ⟨hlink.symm.trans hc, b, hb, hu⟩

/-- An insertion makes live links below the node of the merge and no others. -/
theorem advances_of_planted : Advances live node s t := by
  refine ⟨hpl.root, fun y hy a ha => ?_, fun c p hc => ?_⟩
  · cases hsa : s.contains a with
    | true => rw [hpl.old a hsa, hy a ha]
    | false =>
        have hla : live.parent a = none := by
          rw [← hy a ha, ((s.not_contains_iff a).mp hsa).2]
        cases hpa : t.parent a with
        | none => rw [hla]
        | some p =>
            rw [← (under_of_planted live hlive node batch s t hpl hnew hkid hbelow a p hsa hpa).1]
  · cases hsc : s.contains c with
    | true => exact Or.inl (hpl.old c hsc ▸ hc)
    | false =>
        rcases under_of_planted live hlive node batch s t hpl hnew hkid hbelow c p hsc hc with
          ⟨hlc, b, hb, hu⟩
        refine Or.inr ⟨hlc, ?_⟩
        -- The parent of an inserted child is the node, any other is below a child.
        rcases (under_iff_up c b).mp hu with rfl | ⟨q, hq, hqb⟩
        · rw [hkid c hb, Option.some.injEq] at hlc
          exact hlc ▸ Under.refl node
        · rw [hlc, Option.some.injEq] at hq
          exact (hq ▸ hqb).trans (Under.of_up (hkid b hb))

/-- What lies under an inserted child is finished: the way up from it leads
    through new nodes to the node of the merge, which is in place. -/
theorem finished_of_planted (hs : s.Sound) (hplaced : Placed live t node) (c x : Handle)
    (hc : c ∈ batch) (hx : Under live.parent x c) : Finished live t x := by
  have hlink := link_of_planted live hlive node batch s t hpl hnew hkid hbelow c
  refine ⟨fun a ha => ?_, ?_⟩
  · rcases Forest.under_total hx ha with hca | hac
    · rcases (under_iff_up c a).mp hca with rfl | ⟨q, hq, hqa⟩
      · exact (hlink c hc (Under.refl c)).2
      · rw [hkid c hc, Option.some.injEq] at hq
        exact hplaced a (hq ▸ hqa)
    · exact (hlink a hc hac).2
  · refine Handle.ascending_ext _ _ (hpl.sound.ascending x) (hlive.ascending x) fun y => ?_
    rw [hpl.sound.tree.mem_kids, hlive.tree.mem_kids]
    constructor
    · intro hy
      cases hsy : s.contains y with
      | false =>
          exact (under_of_planted live hlive node batch s t hpl hnew hkid hbelow y x hsy hy).1
      | true =>
          -- An old link does not lead to a new node.
          rw [hpl.old y hsy] at hy
          have hsx := (s.contains_iff_held x).mpr (hs.tree.held_up y x hy)
          rw [(hlink x hc hx).1] at hsx
          exact absurd hsx Bool.false_ne_true
    · intro hy
      rw [(hlink y hc ((Under.of_up hy).trans hx)).2, hy]

end Planting

section Batch

variable (live : Snapshot) (hlive : live.Proper) (node : Handle) (done wanted tail : List Handle)
  (s : Step) (hm : Merging live node done wanted tail s.store)

include hlive hm

/-- Evicting what is tracked below nodes that are not tracked leads to a later
    moment of the merge. A node that is in place has tracked nodes above it, so
    it does not lie below any of them. -/
theorem Merging.evict (batch : List Handle) (hbatch : ∀ b ∈ batch, s.store.contains b = false ∧
      live.contains b = true) :
    ∃ flag s' tail', s.evictTracked live.contains batch live = .ok (flag, s') ∧ Works live s s' ∧
      Advances live node s.store s'.store ∧ Merging live node done wanted tail' s'.store ∧
      (∀ x ∈ tail', x ∈ tail) ∧
      s.store.Cuts s'.store (Step.Evicted s.store (batch.flatMap live.descendants)) ∧
      (flag = true ↔ ∃ v ∈ batch.flatMap live.descendants, s.store.parent v ≠ none) ∧
      (flag = false → s' = s) := by
  have hs := hm.fits.sound
  rcases s.evictTracked_spec live.contains hs batch live with
    ⟨flag, s', hrun, _, hcut, hflag, hsame⟩
  have hadv : Advances live node s.store s'.store := by
    refine advances_of_cut live s.store s'.store node _ hcut fun y hy hg => ?_
    rcases hg with ⟨v, hv, _, hu⟩
    rcases List.mem_flatMap.mp hv with ⟨b, hb, hvb⟩
    exact hm.fits.unplaced_below live s.store hlive b v (hbatch b hb).1 (hbatch b hb).2 hvb y hy hu
  rcases hm.advance live hlive node done wanted tail s s'.store node hcut.sound hadv
    fun c hc => (hcut.links.up_of_up c node hc).1 with ⟨tail', hm', hsub⟩
  have hworks := works_evict live hlive batch _ (fun _ hv => hv) false s hm.fits hbatch (flag, s')
    hrun
  exact ⟨flag, s', tail', hrun, hworks, hadv, hm', hsub, hcut, hflag, hsame⟩

/-- Inserting a batch of wanted children with all that is live below them
    leads to a later moment of the merge, at which the batch is finished. -/
theorem Merging.insert (batch back : List Handle) (hwanted : wanted = batch ++ back)
    (hne : batch ≠ []) (hnew : ∀ b ∈ batch, s.store.contains b = false)
    (hfit : ∀ b ∈ batch, ∀ x ∈ tail, b < x)
    (hbelow : ∀ v ∈ batch.flatMap live.descendants, s.store.contains v = false)
    (hnext : ∀ n ∈ back.head?, s.store.contains n = true ∨ ∃ x ∈ tail.head?, x ≤ n) :
    ∃ s', s.insertRows node done.length batch live = .ok s' ∧ Works live s s' ∧
      Advances live node s.store s'.store ∧
      Merging live node (done ++ batch) back tail s'.store := by
  have hs := hm.fits.sound
  have hrows : live.children node = done ++ batch ++ back := by
    rw [hm.wanted_eq, hwanted, List.append_assoc]
  have hkid : ∀ b ∈ batch, live.parent b = some node := by
    intro b hb
    rw [← hlive.tree.mem_kids, hrows]
    exact List.mem_append_left back (List.mem_append_right done hb)
  -- The batch fits between the children that are done and those that follow.
  have hasc : Handle.Ascending (done ++ batch ++ tail) := by
    have hfront := (List.pairwise_append.mp (hrows ▸ hlive.ascending node)).1
    have hold := List.pairwise_append.mp (hm.ascending_kids live node done wanted tail s)
    refine List.pairwise_append.mpr ⟨hfront, hold.2.1, fun c hc x hx => ?_⟩
    rcases List.mem_append.mp hc with hc | hc
    · exact hold.2.2 c hc x hx
    · exact hfit c hc x hx
  have hfresh : Fresh live s.store node done batch tail :=
    ⟨hm.fits, hm.placed, hne, hm.kids_eq, hasc, hkid, hnew, hbelow, back, hrows, hnext⟩
  rcases hfresh.insertRows live s hlive node done batch tail with ⟨s', hrun, hworks, hpl, hkids⟩
  have hadv := advances_of_planted live hlive node batch s.store s'.store hpl hnew hkid hbelow
  have hplaced := hadv.placed node hm.placed
  have hfit' := hm.fits.advance live s.store s'.store hlive node hworks.sound hadv
  refine ⟨s', hrun, hworks, hadv, hfit', hm.is_live, hplaced, hrows, hkids, fun c hc x hx => ?_⟩
  rcases List.mem_append.mp hc with hc | hc
  · exact (hm.finished c hc x hx).advance live s.store s'.store hlive node x hs hworks.sound hadv
  · exact finished_of_planted live hlive node batch s.store s'.store hpl hnew hkid hbelow hs hplaced
      c x hc hx

end Batch

section Choice

variable (live : Snapshot) (hlive : live.Proper) (node h : Handle) (done rest : List Handle)

/-- The test of the choice, in terms of all recorded children that follow. -/
theorem fits_in_front_iff (store : Store) (tail : List Handle) (htail : Handle.Ascending tail)
    (b : Handle) :
    (!store.contains b && match tail[0]? with
      | none => true
      | some x => decide (b < x)) = true ↔ store.contains b = false ∧ ∀ x ∈ tail, b < x := by
  rw [Bool.and_eq_true, Bool.not_eq_eq_eq_not, Bool.not_true]
  refine and_congr_right fun _ => ?_
  cases tail with
  | nil => simp only [List.getElem?_nil, List.not_mem_nil, false_implies, implies_true]
  | cons y ys =>
      simp only [List.getElem?_cons_zero, decide_eq_true_eq, List.forall_mem_cons]
      refine ⟨fun hby => ⟨hby, fun x hx => ?_⟩, fun hall => hall.1⟩
      exact hby.trans ((List.pairwise_cons.mp htail).1 x hx)

-- The first entry that is not dropped fails the test.
theorem not_of_mem_head?_dropWhile {α : Type} (p : α → Bool) (xs : List α) (n : α)
    (hn : n ∈ (xs.dropWhile p).head?) : p n = false := by
  have hstop := List.head?_dropWhile_not p xs
  rw [Option.mem_def.mp hn] at hstop
  exact hstop

/-- The batch that is chosen is a part of the wanted children that starts with
    the first of them, is not tracked and fits in front of the next recorded
    child. The wanted child after it is tracked or does not fit. -/
theorem freshRun_spec (store : Store) (tail : List Handle) (htail : Handle.Ascending tail)
    (hfirst : ∀ x ∈ tail, h < x) (hh : store.contains h = false) :
    ∃ more back, freshRun store tail[0]? (h :: rest) = h :: more ∧ h :: rest = (h :: more) ++ back ∧
      (∀ b ∈ h :: more, store.contains b = false ∧ ∀ x ∈ tail, b < x) ∧
      ∀ n ∈ back.head?, store.contains n = true ∨ ∃ x ∈ tail.head?, x ≤ n := by
  have hpass := (fits_in_front_iff store tail htail h).mpr ⟨hh, hfirst⟩
  have hcons : ∃ more, freshRun store tail[0]? (h :: rest) = h :: more :=
    ⟨_, List.takeWhile_cons_of_pos hpass⟩
  rcases hcons with ⟨more, hmore⟩
  have hsplit : ∃ back, h :: rest = freshRun store tail[0]? (h :: rest) ++ back ∧
      ∀ n ∈ back.head?, ¬ (store.contains n = false ∧ ∀ x ∈ tail, n < x) := by
    refine ⟨_, List.takeWhile_append_dropWhile.symm, fun n hn hfit => ?_⟩
    have hstop := not_of_mem_head?_dropWhile _ _ n hn
    exact Bool.noConfusion (hstop.symm.trans ((fits_in_front_iff store tail htail n).mpr hfit))
  rw [hmore] at hsplit
  rcases hsplit with ⟨back, hback, hnext⟩
  refine ⟨more, back, hmore, hback, fun b hb => ?_, fun n hn => ?_⟩
  · rw [← hmore] at hb
    have hpassed := List.mem_takeWhile_imp hb
    exact (fits_in_front_iff store tail htail b).mp hpassed
  · by_contra hno
    rw [not_or, Bool.not_eq_true] at hno
    refine hnext n hn ⟨hno.1, fun x hx => ?_⟩
    cases tail with
    | nil => exact absurd hx List.not_mem_nil
    | cons y ys =>
        have hny : n < y := lt_of_not_ge fun hle => hno.2 ⟨y, rfl, hle⟩
        rcases List.mem_cons.mp hx with rfl | hx
        · exact hny
        · exact hny.trans ((List.pairwise_cons.mp htail).1 x hx)

include hlive

/-- The choice of a batch comes to an end, because each round that does not end
    it takes a tracked node away. -/
theorem chooseBatch_spec (rounds : Nat) (tail : List Handle) (s : Step)
    (hm : Merging live node done (h :: rest) tail s.store) (hfirst : ∀ x ∈ tail, h < x)
    (hh : s.store.contains h = false)
    (hrounds : {x | s.store.contains x = true}.ncard ≤ rounds) :
    ∃ batch back s' tail',
      chooseBatch live node done.length (h :: rest) rounds s = .ok (batch, s') ∧
      Works live s s' ∧ Advances live node s.store s'.store ∧
      Merging live node done (h :: rest) tail' s'.store ∧ h :: rest = batch ++ back ∧ batch ≠ [] ∧
      (∀ b ∈ batch, s'.store.contains b = false) ∧ (∀ b ∈ batch, ∀ x ∈ tail', b < x) ∧
      (∀ v ∈ batch.flatMap live.descendants, s'.store.contains v = false) ∧
      ∀ n ∈ back.head?, s'.store.contains n = true ∨ ∃ x ∈ tail'.head?, x ≤ n := by
  induction rounds generalizing tail s with
  | zero =>
      -- The node of the merge is tracked.
      have hn := hm.tracked live hlive node done (h :: rest) tail s
      have hpos : 0 < {x | s.store.contains x = true}.ncard := (Set.ncard_pos).mpr ⟨node, hn⟩
      omega
  | succ rounds ih =>
      have hs := hm.fits.sound
      have hrow := hm.next_row live node done (h :: rest) tail s
      have htail : Handle.Ascending tail :=
        (List.pairwise_append.mp (hm.ascending_kids live node done (h :: rest) tail s)).2.1
      rcases freshRun_spec h rest s.store tail htail hfirst hh with
        ⟨more, back, hbatch, hsplit, hall, hnext⟩
      have hbatchlive : ∀ b ∈ h :: more, s.store.contains b = false ∧ live.contains b = true := by
        intro b hb
        refine ⟨(hall b hb).1, (hlive.contains_of_parent live b node ?_).1⟩
        rw [← hlive.tree.mem_kids, hm.wanted_eq, hsplit]
        exact List.mem_append_right done (List.mem_append_left back hb)
      rcases hm.evict live hlive node done (h :: rest) tail s (h :: more) hbatchlive with
        ⟨flag, s', tail', hrun, hworks, hadv, hm', hsub, hcut, hflag, hsame⟩
      rw [chooseBatch, hrow, hbatch]
      simp only [hrun, bind, Except.bind]
      cases flag with
      | false =>
          -- Nothing was in the way, so nothing below the batch is tracked.
          have hss := hsame rfl
          subst hss
          refine ⟨h :: more, back, s', tail, rfl, hworks, hadv, hm, hsplit, List.cons_ne_nil h more,
            fun b hb => (hall b hb).1, fun b hb => (hall b hb).2, fun v hv => ?_, hnext⟩
          rcases List.mem_flatMap.mp hv with ⟨b, _, hvb⟩
          refine hm.fits.untracked_below live s'.store hlive b v hvb ?_
          by_contra hp
          exact Bool.false_ne_true (hflag.mpr ⟨v, hv, hp⟩)
      | true =>
          -- Something was evicted, so the next round has fewer nodes to deal with.
          rcases hflag.mp rfl with ⟨v, hv, hp⟩
          have hfewer := hcut.ncard_lt v
            ((s.store.contains_iff v).mpr (Or.inr (Option.ne_none_iff_exists'.mp hp)))
            ⟨v, hv, hp, Under.refl v⟩
          have hh' := (hcut.not_contains_iff h).mpr (Or.inl hh)
          rcases ih tail' s' hm' (fun x hx => hfirst x (hsub x hx)) hh' (by omega) with
            ⟨batch, back, s'', tail'', hrun', hworks', hadv', hrest⟩
          exact ⟨batch, back, s'', tail'', hrun', hworks.trans live _ _ _ hworks',
            hadv.trans live s.store s'.store s''.store node hadv', hrest⟩

end Choice

-- The number of rounds that a merge allows is the size of the record.
theorem ncard_tracked_le (s : Store) : {x | s.contains x = true}.ncard ≤ s.size := by
  rw [← s.length_nodeList]
  exact Forest.ncard_le_length _ s.nodeList fun x hx => (s.mem_nodeList x).mpr hx

/-- A stretch of the merge, in both variants, comes to its end with the live
    children in front. -/
def MergesTo (live : Snapshot) (node : Handle) (s : Step)
    (run : Bool → Except Fault (Nat × Step)) : Prop :=
  ∃ s' tail', (∀ b, run b = .ok ((live.children node).length, s')) ∧ Works live s s' ∧
    Advances live node s.store s'.store ∧ Merging live node (live.children node) [] tail' s'.store

section Sweep

variable (live : Snapshot) (hlive : live.Proper) (node : Handle)

-- What comes before a stretch of the merge is put in front of it.
theorem MergesTo.after (s s₁ : Step) (run run' : Bool → Except Fault (Nat × Step))
    (hworks : Works live s s₁) (hadv : Advances live node s.store s₁.store)
    (hrun : ∀ b, run' b = run b) (h : MergesTo live node s₁ run) : MergesTo live node s run' := by
  rcases h with ⟨s', tail', hok, hworks', hadv', hm⟩
  exact ⟨s', tail', fun b => (hrun b).trans (hok b), hworks.trans live _ _ _ hworks',
    hadv.trans live s.store s₁.store s'.store node hadv', hm⟩

-- In an ascending list without smaller entries, a handle is the first or before
-- all of them.
theorem first_or_before (h : Handle) (tail : List Handle) (hasc : Handle.Ascending tail)
    (hle : ∀ x ∈ tail, h ≤ x) : (∃ tail', tail = h :: tail') ∨ ∀ x ∈ tail, h < x := by
  cases tail with
  | nil => exact Or.inr fun x hx => absurd hx List.not_mem_nil
  | cons y ys =>
      rcases eq_or_lt_of_le (hle y List.mem_cons_self) with rfl | hlt
      · exact Or.inl ⟨ys, rfl⟩
      · refine Or.inr fun x hx => ?_
        rcases List.mem_cons.mp hx with rfl | hx
        · exact hlt
        · exact hlt.trans ((List.pairwise_cons.mp hasc).1 x hx)

-- One round of the merge, after the children that were passed have been removed.
theorem mergeChildren_cons (descend : Handle → Step → Except Fault Step) (bound : Nat)
    (h : Handle) (done rest tail : List Handle) (s s₁ : Step)
    (hkids : s.store.children node = done ++ tail)
    (hpass : (if (tail.takeWhile (· < h)).isEmpty then .ok s
      else s.removeRows live.contains node done.length
        (done.length + (tail.takeWhile (· < h)).length - 1)) = .ok s₁) :
    mergeChildren descend live node (bound + 1) (h :: rest) done.length s =
      (do
        if (s₁.store.children node)[done.length]? = some h then
          let s ← descend h s₁
          mergeChildren descend live node bound rest (done.length + 1) s
        else if s₁.store.contains h then
          let (moved, s) ← s₁.relocate h node
          if moved then
            let s ← descend h s
            mergeChildren descend live node bound rest (done.length + 1) s
          else mergeChildren descend live node bound rest done.length s
        else
          let (batch, s) ← chooseBatch live node done.length (h :: rest) s₁.store.size s₁
          let s ← s.insertRows node done.length batch live
          mergeChildren descend live node bound ((h :: rest).drop batch.length)
            (done.length + batch.length) s) := by
  rw [mergeChildren]
  simp only [hkids, List.drop_left]
  by_cases hempty : (tail.takeWhile (· < h)).isEmpty = true
  · rw [if_pos hempty, Except.ok.injEq] at hpass
    rw [if_pos hempty, hpass]
    rfl
  · rw [if_neg hempty] at hpass
    rw [if_neg hempty, hpass]
    rfl

-- Without a wanted child all is done.
theorem mergesTo_of_nil (descend : Bool → Handle → Step → Except Fault Step) (bound : Nat)
    (done tail : List Handle) (s : Step) (hm : Merging live node done [] tail s.store) :
    MergesTo live node s fun b => mergeChildren (descend b) live node bound [] done.length s := by
  have hdone : live.children node = done := hm.wanted_eq.trans (List.append_nil done)
  refine ⟨s, tail, fun b => ?_, Works.refl live s hm.fits.sound, Advances.refl live s.store node,
    hdone ▸ hm⟩
  cases bound <;> simp only [mergeChildren, hdone]

include hlive

/-- A child in its row is swept, and the merge goes on behind it. -/
theorem mergesTo_of_swept (descend : Bool → Handle → Step → Except Fault Step)
    (hdescend : ∀ c, live.parent c = some node → Descends live descend c) (bound : Nat)
    (h : Handle) (done rest tail : List Handle) (s : Step)
    (hm : Merging live node done (h :: rest) (h :: tail) s.store)
    (hrest : ∀ tail' s', Merging live node (done ++ [h]) rest tail' s'.store →
      MergesTo live node s' fun b =>
        mergeChildren (descend b) live node bound rest (done ++ [h]).length s') :
    MergesTo live node s (fun b => do
      let s ← descend b h s
      mergeChildren (descend b) live node bound rest (done.length + 1) s) := by
  have hlh := hm.parent_next live hlive node h done rest (h :: tail) s
  rcases Merging.descend live hlive node h done rest tail s descend hm (hdescend h hlh) with
    ⟨s₁, tail₁, hrun, hworks, hadv, hm₁⟩
  refine (hrest tail₁ s₁ hm₁).after live node s s₁ _ _ hworks hadv fun b => ?_
  rw [List.length_append, List.length_singleton]
  simp only [hrun b, bind, Except.bind]

/-- A merge leaves the live children of a node in front of what is left of the
    recorded ones. The induction is on the bound on the wanted children that are
    left, of which each round deals with one or more. -/
theorem mergeChildren_spec (descend : Bool → Handle → Step → Except Fault Step)
    (hdescend : ∀ c, live.parent c = some node → Descends live descend c) (bound : Nat)
    (done wanted tail : List Handle) (s : Step) (hm : Merging live node done wanted tail s.store)
    (hbound : wanted.length ≤ bound) :
    MergesTo live node s fun b =>
      mergeChildren (descend b) live node bound wanted done.length s := by
  induction bound generalizing done wanted tail s with
  | zero =>
      have hnil : wanted = [] := List.length_eq_zero_iff.mp (by omega)
      subst hnil
      exact mergesTo_of_nil live node descend 0 done tail s hm
  | succ bound ih =>
      cases wanted with
      | nil => exact mergesTo_of_nil live node descend (bound + 1) done tail s hm
      | cons h rest =>
          rw [List.length_cons] at hbound
          -- What the wanted child has passed goes first.
          rcases hm.pass live hlive node h done rest tail s with
            ⟨s₁, tail₁, hrun₁, hworks₁, hadv₁, hm₁, hle⟩
          have hround := fun b =>
            mergeChildren_cons live node (descend b) bound h done rest tail s s₁ hm.kids_eq hrun₁
          refine MergesTo.after live node s s₁ _ _ hworks₁ hadv₁ hround ?_
          have hswept := fun (tail' : List Handle) (m : Step)
              (hmm : Merging live node done (h :: rest) (h :: tail') m.store) =>
            mergesTo_of_swept live hlive node descend hdescend bound h done rest tail' m hmm
              fun tail'' s' hm' => ih (done ++ [h]) rest tail'' s' hm' (by omega)
          have hasc : Handle.Ascending tail₁ :=
            (List.pairwise_append.mp (hm₁.ascending_kids live node done (h :: rest) tail₁ s₁)).2.1
          rw [hm₁.next_row live node done (h :: rest) tail₁ s₁]
          -- It is in its row, or it is not recorded here at all.
          rcases first_or_before h tail₁ hasc hle with ⟨tail₂, rfl⟩ | htail
          · simp only [List.getElem?_cons_zero, if_true]
            exact hswept tail₂ s₁ hm₁
          · have hhead : tail₁[0]? ≠ some h := fun hhead =>
              lt_irrefl h (htail h (List.mem_of_getElem? hhead))
            simp only [hhead, if_false]
            cases hh : s₁.store.contains h with
            | true =>
                -- It is recorded elsewhere and is moved to its row first.
                rcases hm₁.relocate live hlive node h done rest tail₁ s₁ htail hh with
                  ⟨s₂, hrun₂, hworks₂, hadv₂, hm₂⟩
                simp only [if_true, hrun₂, bind, Except.bind]
                exact (hswept tail₁ s₂ hm₂).after live node s₁ s₂ _ _ hworks₂ hadv₂ fun _ => rfl
            | false =>
                -- It is new and is inserted with those after it that are, too.
                rcases chooseBatch_spec live hlive node h done rest s₁.store.size tail₁ s₁ hm₁
                  htail hh (ncard_tracked_le s₁.store) with
                  ⟨batch, back, s₂, tail₂, hrun₂, hworks₂, hadv₂, hm₂, hsplit, hne, hnew, hfit,
                    hbelow, hnext⟩
                rcases hm₂.insert live hlive node done (h :: rest) tail₂ s₂ batch back hsplit hne
                  hnew hfit hbelow hnext with ⟨s₃, hrun₃, hworks₃, hadv₃, hm₃⟩
                have hlen : back.length ≤ bound := by
                  have hpos : 0 < batch.length := List.length_pos_iff.mpr hne
                  have hsum := congrArg List.length hsplit
                  rw [List.length_append, List.length_cons] at hsum
                  omega
                have hlast := ih (done ++ batch) back tail₂ s₃ hm₃ hlen
                rw [List.length_append] at hlast
                simp only [Bool.false_eq_true, if_false, hrun₂, bind, Except.bind, hrun₃]
                rw [hsplit, List.drop_left]
                exact hlast.after live node s₁ s₃ _ _ (hworks₂.trans live _ _ _ hworks₃)
                  (hadv₂.trans live s₁.store s₂.store s₃.store node hadv₃) fun _ => rfl

/-- Recorded children behind the last live one are not wanted and are removed. -/
theorem Merging.remove_rest (tail : List Handle) (s : Step)
    (hm : Merging live node (live.children node) [] tail s.store) :
    ∃ s', (if (live.children node).length < (s.store.children node).length then
        s.removeRows live.contains node (live.children node).length
          ((s.store.children node).length - 1)
      else .ok s) = .ok s' ∧ Works live s s' ∧ Advances live node s.store s'.store ∧
      Merging live node (live.children node) [] [] s'.store := by
  rw [hm.kids_eq, List.length_append]
  by_cases hnil : tail = []
  · subst hnil
    rw [List.length_nil, Nat.add_zero, if_neg (Nat.lt_irrefl _)]
    exact ⟨s, rfl, Works.refl live s hm.fits.sound, Advances.refl live s.store node, hm⟩
  · have hpos : 0 < tail.length := List.length_pos_iff.mpr hnil
    rw [if_pos (by omega)]
    exact hm.remove live hlive node (live.children node) [] tail s tail []
      (List.append_nil tail).symm hnil fun _ _ => List.not_mem_nil

omit hlive in
/-- After the merge and the removal of what is left over nothing is left to settle. -/
theorem diffNode_of_merge (isStrict : Bool) (depth : Nat) (s s₁ s₂ : Step)
    (hmerge : mergeChildren (diffNode isStrict live depth) live node (live.children node).length
      (live.children node) 0 s = .ok ((live.children node).length, s₁))
    (hrest : (if (live.children node).length < (s₁.store.children node).length then
        s₁.removeRows live.contains node (live.children node).length
          ((s₁.store.children node).length - 1)
      else .ok s₁) = .ok s₂)
    (hkids : s₂.store.children node = live.children node) :
    diffNode isStrict live (depth + 1) node s = .ok s₂ := by
  have hsettle : settle isStrict live node s₂ = .ok s₂ := by
    rw [settle]
    simp only [hkids, if_true, pure, Except.pure]
  simp only [diffNode, hmerge, bind, Except.bind]
  by_cases hmore : (live.children node).length < (s₁.store.children node).length
  · rw [if_pos hmore] at hrest ⊢
    simp only [hrest, hsettle]
  · rw [if_neg hmore, Except.ok.injEq] at hrest
    rw [if_neg hmore, hrest, hsettle]

/-- The sweep below a node finishes all nodes below it, provided that it may go
    as many levels deep as there are nodes under it in the snapshot. -/
theorem diffNode_spec (depth : Nat) (hdepth : Forest.weight live.parent node ≤ depth) :
    Descends live (fun b => diffNode b live depth) node := by
  induction depth generalizing node with
  | zero =>
      have hpos := Forest.weight_pos live.parent node
      omega
  | succ depth ih =>
      intro s hfits hn hplaced
      have hstart : Merging live node [] (live.children node) (s.store.children node) s.store :=
        ⟨hfits, hn, hplaced, rfl, rfl, fun c hc => absurd hc List.not_mem_nil⟩
      have hdescend : ∀ c, live.parent c = some node →
          Descends live (fun b => diffNode b live depth) c := by
        intro c hc
        have hlt := hlive.tree.weight_lt c node hc
        exact ih c (by omega)
      rcases mergeChildren_spec live hlive node _ hdescend _ [] _ _ s hstart (Nat.le_refl _) with
        ⟨s₁, tail, hrun₁, hworks₁, hadv₁, hm₁⟩
      rcases hm₁.remove_rest live hlive node tail s₁ with ⟨s₂, hrun₂, hworks₂, hadv₂, hm₂⟩
      have hkids : s₂.store.children node = live.children node :=
        hm₂.kids_eq.trans (List.append_nil _)
      refine ⟨s₂, fun b => diffNode_of_merge live node b depth s s₁ s₂ (hrun₁ b) hrun₂ hkids,
        hworks₁.trans live _ _ _ hworks₂,
        hadv₁.trans live s.store s₁.store s₂.store node hadv₂, fun x hx => ?_⟩
      rcases (hlive.tree.under_iff_kid x node).mp hx with rfl | ⟨c, hc, hxc⟩
      · exact ⟨hm₂.placed, hkids⟩
      · exact hm₂.finished c hc x hxc

end Sweep

end Pass

end TreeWatch
