import TreeWatch.Proofs.FullPass

/-!
# What a Pass Leaves Alone

A pass moves and evicts nodes anywhere in the record, each with all that is
recorded below it. Equal trees in the end do not say that a consumer could keep
looking at a node that never moved. It can, because a node in place stays in
place, and no act of a pass touches it: it is in no row that goes away or comes,
and below none.

The same argument settles what a pass does to the nodes it brings in. A node that
comes in is in place from then on, whether it was moved, was inserted or came
below an inserted one. So it is not removed again and does not come in twice, and
if it had been tracked before the pass, it must have been taken away first.

`Spares` states both for a stretch of a trace. It is known for each act and is
kept when stretches are put one after the other.

## Main definitions

* `Store.shown`: The record that was shown last.
* `Notice.Leaves`: A node is tracked and shown, and its row is left alone.
* `Pass.Spares`: What is in place is left alone, and what comes in is in place.

## Theorems

* `Pass.Spares.append`: Stretches of a trace one after the other.
* `Pass.Act.spares`, `Pass.Course.spares`: Acts spare what is in place.
* `Pass.run_spares`: A pass that keeps the root spares what is in place.
-/

namespace TreeWatch

open Forest (Under under_iff_up)

/-- The record that was shown last, after some announcements. -/
def Store.shown (s : Store) (trace : List Notice) : Store := trace.foldl (fun _ n => n.store) s

theorem Store.shown_append (s : Store) (before after : List Notice) :
    s.shown (before ++ after) = (s.shown before).shown after :=
  List.foldl_append

/-- At the moment of an announcement the node is tracked under a parent and shown
    in the grid, and the announced rows are not those of the node or of nodes
    above it. The model was not replaced either. -/
structure Notice.Leaves (n : Notice) (h : Handle) (p : Option Handle) : Prop where
  tracked : n.store.contains h = true
  parent : n.store.parent h = p
  shown : n.store.shape.contains h = true
  takes : ¬ n.Takes h
  gives : ¬ n.Gives h
  edited : n.event ≠ .modelReset

-- An entry of a list that was put together is in one part or in the other.
theorem split_append {α : Type} (xs ys before after : List α) (a : α)
    (h : xs ++ ys = before ++ a :: after) :
    (∃ mid, xs = before ++ a :: mid ∧ after = mid ++ ys) ∨
      ∃ mid, before = xs ++ mid ∧ ys = mid ++ a :: after := by
  rcases List.append_eq_append_iff.mp h with ⟨mid, hbefore, hmid⟩ | ⟨mid, hxs, hmid⟩
  · exact Or.inr ⟨mid, hbefore, hmid⟩
  · cases mid with
    | nil => exact Or.inr ⟨[], by rw [hxs, List.append_nil, List.append_nil], hmid.symm⟩
    | cons x mid =>
        rw [List.cons_append, List.cons.injEq] at hmid
        exact Or.inl ⟨mid, hmid.1 ▸ hxs, hmid.2⟩

namespace Pass

/-- A node comes in with the announcement that follows `before`. -/
def Enters (s : Store) (before : List Notice) (n : Notice) (h : Handle) : Prop :=
  (s.shown before).contains h = false ∧ n.store.contains h = true

/-- A trace that leads from one record to another leaves alone what is in place.
    What goes away is taken with announced rows. What comes in is in place then
    and left alone from there on, and was taken before if it had been tracked.
    Inserted nodes come in with their rows. -/
structure Spares (live : Snapshot) (s : Store) (trace : List Notice) (t : Store) : Prop where
  shown : s.shown trace = t
  placed : ∀ h, Placed live s h → s.contains h = true → Placed live t h ∧ t.contains h = true
  leaves : ∀ h, Placed live s h → s.contains h = true → ∀ n ∈ trace, n.Leaves h (live.parent h)
  takes : ∀ h, s.contains h = true → t.contains h = false → ∃ n ∈ trace, n.Removes h
  settles : ∀ before n after, trace = before ++ n :: after → ∀ h, Enters s before n h →
    (Placed live t h ∧ t.contains h = true) ∧ (∀ m ∈ after, m.Leaves h (live.parent h)) ∧
      (s.contains h = true → ∃ m ∈ before, m.Removes h)
  inserted : ∀ before n after, trace = before ++ n :: after →
    n.inserted.Nodup ∧ ∀ h ∈ n.inserted, Enters s before n h

section Spares

variable (live : Snapshot) (s t u : Store)

theorem Spares.nil : Spares live s [] s := by
  have hnil : ∀ (before : List Notice) n after, [] ≠ before ++ n :: after := fun before n after h =>
    List.append_ne_nil_of_right_ne_nil before (List.cons_ne_nil n after) h.symm
  exact ⟨rfl, fun _ hp hh => ⟨hp, hh⟩, fun _ _ _ _ hn => absurd hn List.not_mem_nil,
    fun _ hs ht => absurd (hs.symm.trans ht) Bool.noConfusion,
    fun before n after h => absurd h (hnil before n after),
    fun before n after h => absurd h (hnil before n after)⟩

theorem Spares.append (before after : List Notice) (h : Spares live s before t)
    (h' : Spares live t after u) : Spares live s (before ++ after) u := by
  have hshown : ∀ mid, s.shown (before ++ mid) = t.shown mid := fun mid =>
    (s.shown_append before mid).trans (congrArg (Store.shown · mid) h.shown)
  refine ⟨(hshown after).trans h'.shown, fun x hp hx => ?_, fun x hp hx n hn => ?_,
    fun x hs hu => ?_, fun front n back hsplit x hx => ?_, fun front n back hsplit => ?_⟩
  · rcases h.placed x hp hx with ⟨hp', hx'⟩
    exact h'.placed x hp' hx'
  · rcases h.placed x hp hx with ⟨hp', hx'⟩
    rcases List.mem_append.mp hn with hn | hn
    · exact h.leaves x hp hx n hn
    · exact h'.leaves x hp' hx' n hn
  · cases ht : t.contains x with
    | false =>
        rcases h.takes x hs ht with ⟨n, hn, htakes⟩
        exact ⟨n, List.mem_append_left after hn, htakes⟩
    | true =>
        rcases h'.takes x ht hu with ⟨n, hn, htakes⟩
        exact ⟨n, List.mem_append_right before hn, htakes⟩
  · rcases split_append before after front back n hsplit with ⟨mid, hfirst, rfl⟩ | ⟨mid, rfl, hlast⟩
    · rcases h.settles front n mid hfirst x hx with ⟨⟨hp, ht⟩, hleaves, htaken⟩
      refine ⟨h'.placed x hp ht, fun m hm => ?_, htaken⟩
      rcases List.mem_append.mp hm with hm | hm
      · exact hleaves m hm
      · exact h'.leaves x hp ht m hm
    · rw [Enters, hshown] at hx
      rcases h'.settles mid n back hlast x hx with ⟨hplaced, hleaves, htaken⟩
      refine ⟨hplaced, hleaves, fun hs => ?_⟩
      -- The node went away in the first stretch or in the second.
      cases ht : t.contains x with
      | false =>
          rcases h.takes x hs ht with ⟨m, hm, htakes⟩
          exact ⟨m, List.mem_append_left mid hm, htakes⟩
      | true =>
          rcases htaken ht with ⟨m, hm, htakes⟩
          exact ⟨m, List.mem_append_right before hm, htakes⟩
  · rcases split_append before after front back n hsplit with ⟨mid, hfirst, rfl⟩ | ⟨mid, rfl, hlast⟩
    · exact h.inserted front n mid hfirst
    · rcases h'.inserted mid n back hlast with ⟨hnd, hin⟩
      refine ⟨hnd, fun x hx => ?_⟩
      rw [Enters, hshown]
      exact hin x hx

end Spares

end Pass

-- A sound record shows what it tracks.
theorem Store.Sound.contains_shape (s : Store) (hs : s.Sound) (h : Handle) :
    s.shape.contains h = s.contains h := by
  rw [Std.ExtTreeMap.contains_eq_isSome_getElem?, hs.shape_get]
  cases s.contains h <;> rfl

-- The only entry of a list has nothing before and after it.
theorem split_singleton {α : Type} (x a : α) (before after : List α)
    (h : [x] = before ++ a :: after) : before = [] ∧ a = x ∧ after = [] := by
  rcases List.append_eq_singleton_iff.mp h.symm with ⟨hnil, hcons⟩ | ⟨_, hcons⟩
  · rw [List.cons.injEq] at hcons
    exact ⟨hnil, hcons⟩
  · exact absurd hcons (List.cons_ne_nil a after)

-- Of two announcements, either is the first or the second.
theorem split_pair {α : Type} (x y a : α) (before after : List α)
    (h : [x, y] = before ++ a :: after) :
    (before = [] ∧ a = x ∧ after = [y]) ∨ (before = [x] ∧ a = y ∧ after = []) := by
  rcases split_append [x] [y] before after a h with ⟨mid, hx, rfl⟩ | ⟨mid, rfl, hy⟩
  · rcases split_singleton x a before mid hx with ⟨hbefore, ha, rfl⟩
    exact Or.inl ⟨hbefore, ha, rfl⟩
  · rcases split_singleton y a mid after hy with ⟨rfl, ha, hafter⟩
    exact Or.inr ⟨rfl, ha, hafter⟩

namespace Pass

/-- What is in place in the one record is in place in the other, and both show
    it. -/
def Retains (live : Snapshot) (s t : Store) : Prop :=
  ∀ h, Placed live s h → s.contains h = true →
    (Placed live t h ∧ t.contains h = true) ∧ s.shape.contains h = true ∧ t.shape.contains h = true

section Pairs

variable (live : Snapshot) (s t : Store) (i : Index) (first last : Nat)

/-- Announcements without rows leave everything alone. -/
theorem spares_quiet (hshown : ∀ h, t.contains h = true → t.shape.contains h = true)
    (trace : List Notice)
    (hquiet : ∀ n ∈ trace, n.store = t ∧ n.removed = [] ∧ n.inserted = [] ∧
      n.event ≠ .modelReset) : Spares live t trace t := by
  have hsame : ∀ before : List Notice, (∀ n ∈ before, n.store = t) → t.shown before = t := by
    intro before hbefore
    induction before with
    | nil => rfl
    | cons n before ih =>
        rw [Store.shown, List.foldl_cons, hbefore n List.mem_cons_self]
        exact ih fun m hm => hbefore m (List.mem_cons_of_mem n hm)
  refine ⟨hsame trace fun n hn => (hquiet n hn).1, fun h hp hh => ⟨hp, hh⟩,
    fun h hp hh n hn => ?_, fun h hh hgone => ?_, fun before n after hsplit h hin => ?_,
    fun before n after hsplit => ?_⟩
  · rcases hquiet n hn with ⟨hstore, hremoved, hinserted, hedited⟩
    refine ⟨hstore ▸ hh, hstore ▸ hp h (Under.refl h), hstore ▸ hshown h hh, ?_, ?_, hedited⟩
    · rintro ⟨v, hv, _⟩
      exact absurd (hremoved ▸ hv) List.not_mem_nil
    · rintro ⟨v, hv, _⟩
      exact absurd (hinserted ▸ hv) List.not_mem_nil
  · exact absurd (hh.symm.trans hgone) Bool.noConfusion
  · rw [Enters, hsame before fun m hm => (hquiet m (hsplit ▸ List.mem_append_left _ hm)).1,
      (hquiet n (hsplit ▸ List.mem_append_right _ List.mem_cons_self)).1] at hin
    exact absurd (hin.1.symm.trans hin.2) Bool.noConfusion
  · rw [(hquiet n (hsplit ▸ List.mem_append_right _ List.mem_cons_self)).2.2.1]
    exact ⟨List.nodup_nil, fun h hh => absurd hh List.not_mem_nil⟩

variable (hkeep : Retains live s t)

include hkeep

/-- Rows go away that nothing in place is under, and nothing else goes away. -/
theorem spares_removal (hsub : ∀ h, t.contains h = true → s.contains h = true)
    (hspare : ∀ h, Placed live s h → ¬ ∃ v ∈ s.rowsAt (some i) first last, Under s.parent h v)
    (hgone : ∀ h, s.contains h = true → t.contains h = false →
      ∃ v ∈ s.rowsAt (some i) first last, Under s.parent h v) :
    Spares live s (removal i first last s t) t := by
  have hnone : ∀ before n after, removal i first last s t = before ++ n :: after →
      ∀ h, ¬ Enters s before n h := by
    rintro before n after hsplit h ⟨hout, hin⟩
    rcases split_pair _ _ n before after hsplit with ⟨rfl, rfl, _⟩ | ⟨rfl, rfl, _⟩
    · exact Bool.noConfusion (hout.symm.trans hin)
    · exact Bool.noConfusion (hout.symm.trans (hsub h hin))
  refine ⟨rfl, fun h hp hh => (hkeep h hp hh).1, fun h hp hh n hn => ?_, fun h hh hout => ?_,
    fun before n after hsplit h hin => absurd hin (hnone before n after hsplit h),
    fun before n after hsplit => ?_⟩
  · rcases hkeep h hp hh with ⟨⟨hp', hh'⟩, hshown, hshown'⟩
    rcases List.mem_pair.mp hn with rfl | rfl
    · refine ⟨hh, hp h (Under.refl h), hshown, hspare h hp, ?_, Event.noConfusion⟩
      exact fun ⟨v, hv, _⟩ => absurd hv List.not_mem_nil
    · refine ⟨hh', hp' h (Under.refl h), hshown', ?_, ?_, Event.noConfusion⟩
      · exact fun ⟨v, hv, _⟩ => absurd hv List.not_mem_nil
      · exact fun ⟨v, hv, _⟩ => absurd hv List.not_mem_nil
  · exact ⟨_, List.mem_cons_self, ⟨i.node, first, last, rfl⟩, hgone h hh hout⟩
  · rcases split_pair _ _ n before after hsplit with ⟨_, rfl, _⟩ | ⟨_, rfl, _⟩
    · exact ⟨List.nodup_nil, fun h hh => absurd hh List.not_mem_nil⟩
    · exact ⟨List.nodup_nil, fun h hh => absurd hh List.not_mem_nil⟩

/-- Rows come that nothing in place is under, and what comes is in place. -/
theorem spares_insertion (hsup : ∀ h, s.contains h = true → t.contains h = true)
    (hspare : ∀ h, Placed live s h → s.contains h = true →
      ¬ ∃ v ∈ t.rowsAt (some i) first last, Under t.parent h v)
    (hnew : ∀ h, s.contains h = false → t.contains h = true → Placed live t h)
    (hnd : (t.rowsAt (some i) first last).Nodup)
    (hrows : ∀ h ∈ t.rowsAt (some i) first last, s.contains h = false ∧ t.contains h = true) :
    Spares live s (insertion i first last s t) t := by
  refine ⟨rfl, fun h hp hh => (hkeep h hp hh).1, fun h hp hh n hn => ?_, fun h hh hout => ?_,
    fun before n after hsplit h hin => ?_, fun before n after hsplit => ?_⟩
  · rcases hkeep h hp hh with ⟨⟨hp', hh'⟩, hshown, hshown'⟩
    rcases List.mem_pair.mp hn with rfl | rfl
    · refine ⟨hh, hp h (Under.refl h), hshown, ?_, ?_, Event.noConfusion⟩
      · exact fun ⟨v, hv, _⟩ => absurd hv List.not_mem_nil
      · exact fun ⟨v, hv, _⟩ => absurd hv List.not_mem_nil
    · refine ⟨hh', hp' h (Under.refl h), hshown', ?_, hspare h hp hh, Event.noConfusion⟩
      exact fun ⟨v, hv, _⟩ => absurd hv List.not_mem_nil
  · exact absurd (hout.symm.trans (hsup h hh)) Bool.noConfusion
  · rcases split_pair _ _ n before after hsplit with ⟨rfl, rfl, _⟩ | ⟨rfl, rfl, rfl⟩
    · exact absurd (hin.1.symm.trans hin.2) Bool.noConfusion
    · refine ⟨⟨hnew h hin.1 hin.2, hin.2⟩, fun m hm => absurd hm List.not_mem_nil, fun hh => ?_⟩
      exact absurd (hin.1.symm.trans hh) Bool.noConfusion
  · rcases split_pair _ _ n before after hsplit with ⟨_, rfl, _⟩ | ⟨rfl, rfl, _⟩
    · exact ⟨List.nodup_nil, fun h hh => absurd hh List.not_mem_nil⟩
    · exact ⟨hnd, hrows⟩

end Pairs

section Acts

variable (live : Snapshot) (hlive : live.Proper) (s t : Store)

-- Deletions are announced with the record as it is.
theorem spares_farewell (ht : t.Sound) (gone : List Handle) :
    Spares live t (farewell gone t) t := by
  refine spares_quiet live t (fun h hh => (ht.contains_shape t h).trans hh) _ fun n hn => ?_
  rcases List.mem_map.mp hn with ⟨h, _, rfl⟩
  exact ⟨rfl, rfl, rfl, Event.noConfusion⟩

/-- Removing rows that no node in place is under spares what is in place. -/
theorem Spare.spares (i : Index) (front rows back : List Handle)
    (h : Spare live s i.node front rows back)
    (hcut : s.Cuts t fun x => ∃ v ∈ rows, Under s.parent x v) :
    Spares live s (removal i front.length (front.length + rows.length - 1) s t) t := by
  have hadv := advances_of_cut live s t i.node _ hcut h.unplaced
  have hrows := s.rowsAt_eq i front rows back h.kids h.nonempty
  have hkeep : Retains live s t := by
    intro x hp hx
    have hx' := (hcut.contains_iff x).mpr ⟨hx, h.unplaced x hp⟩
    exact ⟨⟨hadv.placed x hp, hx'⟩, (h.sound.contains_shape s x).trans hx,
      (hcut.sound.contains_shape t x).trans hx'⟩
  refine spares_removal live s t i _ _ hkeep (fun x hx => ((hcut.contains_iff x).mp hx).1) ?_ ?_
  · rw [hrows]
    exact h.unplaced
  · intro x hx hgone
    rw [hrows]
    by_contra hun
    rw [(hcut.contains_iff x).mpr ⟨hx, hun⟩] at hgone
    exact Bool.noConfusion hgone

include hlive

/-- Inserting new nodes spares what is in place, and puts them in place. -/
theorem Fresh.spares (i : Index) (front batch back : List Handle)
    (h : Fresh live s i.node front batch back) (hpl : Store.Planted live i.node s batch t)
    (hkids : t.children i.node = front ++ batch ++ back) :
    Spares live s (insertion i front.length (front.length + batch.length - 1) s t) t := by
  have hrows := t.rowsAt_eq i front batch back hkids h.nonempty
  have hadv := advances_of_planted live hlive i.node batch s t hpl h.new h.parent h.below
  have hsup : ∀ x, s.contains x = true → t.contains x = true := fun x hx =>
    (hpl.contains_iff x).mpr (Or.inl hx)
  have hkeep : Retains live s t := fun x hp hx => ⟨⟨hadv.placed x hp, hsup x hx⟩,
    (h.fits.sound.contains_shape s x).trans hx, (hpl.sound.contains_shape t x).trans (hsup x hx)⟩
  refine spares_insertion live s t i _ _ hkeep hsup (fun x hp hx hg => ?_) (fun x hx hx' => ?_)
    ?_ ?_
  · -- A node in place would be live below the batch, where nothing was tracked.
    rw [hrows] at hg
    rcases hg with ⟨b, hb, hu⟩
    have hlu := ((hadv.placed x hp).under_iff live t x b).mp hu
    have hnew :=
      (link_of_planted live hlive i.node batch s t hpl h.new h.parent h.below b x hb hlu).1
    exact Bool.noConfusion (hnew.symm.trans hx)
  · rcases (t.contains_iff x).mp hx' with hr | ⟨p, hp⟩
    · rw [(s.contains_iff x).mpr (Or.inl (hpl.root ▸ hr))] at hx
      exact Bool.noConfusion hx
    · rcases under_of_planted live hlive i.node batch s t hpl h.new h.parent h.below x p hx hp with
        ⟨_, b, hb, hu⟩
      exact (finished_of_planted live hlive i.node batch s t hpl h.new h.parent h.below h.fits.sound
        (hadv.placed i.node h.placed) b x hb hu).1
  · rw [hrows]
    exact List.Nodup.of_append_right (List.Nodup.of_append_left h.ascending.nodup)
  · rw [hrows]
    exact fun b hb => ⟨h.new b hb, (hpl.contains_iff b).mpr (Or.inr (Or.inl hb))⟩

end Acts

section Moves

variable (live : Snapshot) (s t : Store) (h q node : Handle) (hst : Stray live s h node)
  (hq : s.parent h = some q)

include hst

-- What is in place is not below a stray node, with the node or without it.
theorem Stray.not_under (x : Handle) (hp : Placed live s x) : ¬ Under live.parent x h :=
  fun hu => hst.elsewhere ((hp h hu).trans hst.parent)

theorem Stray.placed_detach (x : Handle) : Placed live (s.detach h).2 x ↔ Placed live s x := by
  refine ⟨fun hp a ha => ?_, fun hp a ha => ?_⟩
  · have hne : h ≠ a := by
      rintro rfl
      have hh := hp h ha
      rw [s.parent_detach, if_pos rfl, hst.parent] at hh
      exact absurd hh (by simp only [reduceCtorEq, not_false_eq_true])
    rw [← hp a ha, s.parent_detach, if_neg hne]
  · have hne : h ≠ a := by
      rintro rfl
      exact hst.not_under live s h node x hp ha
    rw [s.parent_detach, if_neg hne, hp a ha]

include hq

theorem Stray.contains_detach (x : Handle) :
    (s.detach h).2.contains x = true ↔ s.contains x = true ∧ x ≠ h := by
  have hroot := hst.fits.sound.tree.root_ne h q hq
  rw [Store.contains_iff, Store.contains_iff, s.root_detach, s.parent_detach]
  by_cases hx : h = x
  · subst hx
    simp only [hroot, if_true, reduceCtorEq, exists_false, or_self, ne_eq, not_true_eq_false,
      and_false]
  · simp only [hx, if_false, Ne.symm hx, ne_eq, not_false_eq_true, and_true]

-- While a stray node is out, what is in place is shown.
theorem Stray.contains_shape (x : Handle) (hp : Placed live s x) (hx : s.contains x = true) :
    (s.detach h).2.shape.contains x = true := by
  have hs := hst.fits.sound
  have hcut := hs.cuts_remove s h (hs.tree.root_ne h q hq)
  rw [hs.shape_detach s h q hq, hcut.sound.contains_shape, hcut.contains_iff]
  exact ⟨hx, fun hu => hst.not_under live s h node x hp ((hp.under_iff live s x h).mp hu)⟩

/-- The first half of a move takes the node out. -/
theorem Stray.spares_out (i : Index) (row : Nat) (hat : s.rowsAt (some i) row row = [h]) :
    Spares live s (removal i row row s (s.detach h).2) (s.detach h).2 := by
  have hcontains := hst.contains_detach live s h q node hq
  refine spares_removal live s (s.detach h).2 i _ _ (fun x hp hx => ⟨⟨?_, ?_⟩, ?_, ?_⟩)
    (fun x hx => ((hcontains x).mp hx).1) (fun x hp => ?_) fun x hx hgone => ?_
  · exact (hst.placed_detach live s h node x).mpr hp
  · refine (hcontains x).mpr ⟨hx, ?_⟩
    rintro rfl
    exact hst.not_under live s x node x hp (Under.refl x)
  · exact (hst.fits.sound.contains_shape s x).trans hx
  · exact hst.contains_shape live s h q node hq x hp hx
  · simp only [hat, List.mem_singleton, exists_eq_left]
    exact fun hu => hst.not_under live s h node x hp ((hp.under_iff live s x h).mp hu)
  · simp only [hat, List.mem_singleton, exists_eq_left]
    by_contra hun
    have hne : x ≠ h := by
      rintro rfl
      exact hun (Under.refl x)
    exact Bool.noConfusion (hgone.symm.trans ((hcontains x).mpr ⟨hx, hne⟩))

/-- The second half puts it where it belongs. -/
theorem Stray.spares_in (j : Index) (row : Nat) (hat : t.rowsAt (some j) row row = [h])
    (ht : t.Sound) (hroot : t.root = s.root)
    (hup : ∀ x, t.parent x = if h = x then some node else s.parent x) :
    Spares live (s.detach h).2 (insertion j row row (s.detach h).2 t) t := by
  have hcontains := hst.contains_detach live s h q node hq
  have hmoved : ∀ x, t.contains x = true ↔ s.contains x = true := by
    intro x
    rw [Store.contains_iff, Store.contains_iff, hroot, hup]
    by_cases hx : h = x
    · subst hx
      simp only [if_true, Option.some.injEq, exists_eq', or_true, hq]
    · rw [if_neg hx]
  have hback : ∀ x, (s.detach h).2.contains x = true → t.contains x = true := fun x hx =>
    (hmoved x).mpr ((hcontains x).mp hx).1
  have honly : ∀ x, (s.detach h).2.contains x = false → t.contains x = true → x = h := by
    intro x hx hx'
    by_contra hxh
    exact Bool.noConfusion (hx.symm.trans ((hcontains x).mpr ⟨(hmoved x).mp hx', hxh⟩))
  have hplaced : ∀ x, Placed live s x → Placed live t x := by
    intro x hp a ha
    have hne : h ≠ a := by
      rintro rfl
      exact hst.not_under live s h node x hp ha
    rw [hup, if_neg hne, hp a ha]
  have hthere : Placed live t h := by
    refine Placed.child live t h node (hplaced node hst.placed) hst.parent ?_
    rw [hup, if_pos rfl]
  refine spares_insertion live (s.detach h).2 t j _ _ (fun x hp hx => ?_) hback
    (fun x hp _ => ?_) (fun x hx hx' => honly x hx hx' ▸ hthere) ?_ fun x hx => ?_
  · have hp' := (hst.placed_detach live s h node x).mp hp
    exact ⟨⟨hplaced x hp', hback x hx⟩,
      hst.contains_shape live s h q node hq x hp' ((hcontains x).mp hx).1,
      (ht.contains_shape t x).trans (hback x hx)⟩
  · have hp' := (hst.placed_detach live s h node x).mp hp
    simp only [hat, List.mem_singleton, exists_eq_left]
    exact fun hu => hst.not_under live s h node x hp'
      (((hplaced x hp').under_iff live t x h).mp hu)
  · rw [hat]
    exact List.nodup_singleton h
  · rw [hat, List.mem_singleton] at hx
    subst hx
    refine ⟨?_, (hmoved x).mpr hst.tracked⟩
    rw [← Bool.not_eq_true, hcontains]
    exact fun hx => hx.2 rfl

end Moves

section Passes

variable (live : Snapshot) (hlive : live.Proper)

include hlive

/-- Every act spares what is in place. -/
theorem Act.spares (s t : Store) (trace : List Notice) (h : Act live s trace t) :
    Spares live s trace t := by
  cases h with
  | removal _ i front rows back gone hspare hcut _ =>
      exact (hspare.spares live s t i front rows back hcut).append live s t t _ _
        (spares_farewell live t hcut.sound gone)
  | move _ i j h front back front' back' hst hrows hrows' ht hroot hup =>
      have hq : s.parent h = some i.node := by
        rw [← hst.fits.sound.tree.mem_kids, hrows]
        exact List.mem_append_left _ (List.mem_append_right _ (List.mem_singleton_self h))
      refine Spares.append live s (s.detach h).2 t _ _ ?_ ?_
      · exact hst.spares_out live s h i.node j.node hq i _
          (s.rowsAt_eq i front [h] back hrows (List.cons_ne_nil h []))
      · exact hst.spares_in live s t h i.node j.node hq j _
          (t.rowsAt_eq j front' [h] back' hrows' (List.cons_ne_nil h [])) ht hroot hup
  | insertion _ i front batch back hfresh hpl hkids =>
      exact hfresh.spares live hlive s t i front batch back hpl hkids

/-- So does a course of acts. -/
theorem Course.spares (s t : Store) (trace : List Notice) (h : Course live s trace t) :
    Spares live s trace t := by
  induction h with
  | nil s => exact .nil live s
  | cons s t u trace rest act _ ih =>
      exact (act.spares live hlive s t trace).append live s t u _ _ ih

/-- A pass that keeps the root spares what is in place. Its report says what it
    announced, and a copy can follow it. -/
theorem run_spares (s : Store) (hs : s.Sound) (hroot : s.root = live.root) :
    ∃ s', (∀ b, run b live { store := s } = .ok s') ∧ Spares live s s'.trace s'.store ∧
      s'.report.script = s'.trace.filterMap Notice.edit ∧ Tells s s'.trace s'.store := by
  rcases run_works live hlive { store := s } hs hroot with ⟨s', hrun, hworks, _⟩
  rcases hworks.course with ⟨trace, htrace, hcourse, hbooked⟩
  rcases hworks.edits.tells with ⟨trace', htrace', htells⟩
  rw [List.nil_append] at htrace htrace'
  subst htrace htrace'
  exact ⟨s', hrun, hcourse.spares live hlive s s'.store s'.trace, hbooked.script, htells⟩

end Passes

end Pass

end TreeWatch
