import TreeWatch.Proofs.Orderly

/-!
# Handles Are Handed Out Once

A slot that is used again names its new node under the next generation. So the
generation of a handle tells how often its slot had been used when the handle
was handed out, and two handles into one slot are apart as long as this count
has not gone all the way around. It has `2 ^ 32` values, and no slot is used more
often than nodes are created. The last node for which this is good enough is the
`2 ^ 32`-th: if all of them went through one slot, its generation is 0, which the
counting from 1 had left out.

A handle that is never handed out again names nothing once its node is dead.
Everything that was ever live had been handed out, so this holds of each node
that was destroyed, alone or with a node above it.

The mutations are the ones in place. What they do to the slots follows from the
writes they are made of: a mutation puts one node into a slot at most, and all
else that it writes lets nodes change and fade.

## Main definitions

* `Scene.Act.hands`, `Scene.handed`: The handles that acts hand out.
* `Scene.uses`, `Scene.Numbered`: Generations count the uses of a slot.
* `Scene.Dated`: What the slots know of the handles that were handed out.
* `Scene.Fades`: Nothing comes to life, and no slot gets another generation.
* `InPlace.Quiet`, `InPlace.Grants`: A mutation that creates no node, or one.
* `Scene.Stale`: What a scene answers about a handle that names nothing.

## Theorems

* `Scene.Numbered.nodup`: Numbered handles are apart.
* `Scene.Dated.allocate`: A new node keeps the numbering.
* `InPlace.Quiet.of_bind`: A mutation made of quiet parts is quiet.
* `Scene.Act.next_cases`: An act creates one node at most.
* `Scene.Dated.after`: Acts keep the numbering, and the dead stay dead.
* `Scene.handed_once`: No handle is handed out twice, and the handle of a dead
  node is refused forever.
-/

namespace TreeWatch

namespace Scene

open InPlace (perform)

/-- The handle that an act hands out, if it creates a node. -/
def Act.hands (a : Act) (s : Scene) : List Handle :=
  match a.answer s with
  | .ok (.node h) => [h]
  | _ => []

/-- The handles that some acts hand out, one after the other. -/
def handed : List Act → Scene → List Handle
  | [], _ => []
  | a :: acts, s => a.hands s ++ handed acts (a.next s)

theorem Act.length_hands (a : Act) (s : Scene) : (a.hands s).length = a.creates s := by
  unfold Act.hands Act.creates
  cases a.answer s with
  | error e => rfl
  | ok r => cases r <;> rfl

theorem length_handed (acts : List Act) (s : Scene) :
    (handed acts s).length = created acts s := by
  induction acts generalizing s with
  | nil => rfl
  | cons a acts ih => rw [handed, List.length_append, a.length_hands, ih, created]

theorem handed_append (acts more : List Act) (s : Scene) :
    handed (acts ++ more) s = handed acts s ++ handed more (after acts s) := by
  induction acts generalizing s with
  | nil => rfl
  | cons a acts ih =>
      rw [List.cons_append, handed, ih, handed, List.append_assoc]
      rfl

theorem after_append (acts more : List Act) (s : Scene) :
    after (acts ++ more) s = after more (after acts s) :=
  List.foldl_append

theorem created_append (acts more : List Act) (s : Scene) :
    created (acts ++ more) s = created acts s + created more (after acts s) := by
  simp only [← length_handed, handed_append, List.length_append]

section Numbering

/-- How often a slot was used for the handles in a list. -/
def uses (past : List Handle) (i : Nat) : Nat := past.countP fun h => h.slot.toNat = i

/-- The generation of each handle tells how often its slot was used up to then, on
    the scale of 32 bits. -/
def Numbered (past : List Handle) : Prop :=
  ∀ before h later, past = before ++ h :: later →
    h.generation.toNat = (uses before h.slot.toNat + 1) % 2 ^ 32

theorem uses_append (past more : List Handle) (i : Nat) :
    uses (past ++ more) i = uses past i + uses more i :=
  List.countP_append

theorem uses_cons (h : Handle) (past : List Handle) (i : Nat) :
    uses (h :: past) i = uses past i + if h.slot.toNat = i then 1 else 0 := by
  rw [uses, List.countP_cons, ← uses]
  simp only [decide_eq_true_eq]

/-- Numbered handles are apart, as long as there are no more of them than
    generations. Between two handles into one slot there would be that many. -/
theorem Numbered.nodup (past : List Handle) (h : Numbered past) (hlen : past.length ≤ 2 ^ 32) :
    past.Nodup := by
  by_contra hdup
  rcases List.exists_duplicate_iff_not_nodup.mpr hdup with ⟨x, hx⟩
  rcases List.cons_sublist_iff.mp (List.duplicate_iff_sublist.mp hx) with
    ⟨front, back, rfl, hfront, hback⟩
  rcases List.append_of_mem hfront with ⟨as, bs, rfl⟩
  rcases List.append_of_mem (List.singleton_sublist.mp hback) with ⟨cs, ds, rfl⟩
  have hfirst := h as x (bs ++ (cs ++ x :: ds)) (by simp only [List.append_assoc, List.cons_append])
  have hsecond := h (as ++ x :: (bs ++ cs)) x ds
    (by simp only [List.append_assoc, List.cons_append])
  rw [hfirst, uses_append, uses_cons, if_pos rfl] at hsecond
  have hshort := List.countP_le_length (p := fun h => h.slot.toNat = x.slot.toNat)
    (l := as ++ x :: (bs ++ cs))
  rw [← uses, uses_append, uses_cons, if_pos rfl] at hshort
  simp only [List.length_append, List.length_cons] at hlen hshort
  omega

end Numbering

/-- The slots agree with the handles that were handed out: they have the
    generations that were reached, and all that is live was handed out. -/
structure Dated (s : Scene) (past : List Handle) : Prop where
  stored : s.Stored past.length
  generation : ∀ i slot, s.slots[i]? = some slot → slot.generation.toNat = uses past i % 2 ^ 32
  placed : ∀ h ∈ past, ∃ slot, s.slots[h.slot.toNat]? = some slot
  numbered : Numbered past
  live : ∀ x, s.contains x = true → x ∈ past

theorem dated_empty : ({} : Scene).Dated [] := by
  refine ⟨sound_empty.stored, fun i slot hslot => ?_, fun h hh => absurd hh List.not_mem_nil,
    fun before h later hsplit => ?_, fun x hx => absurd hx Bool.false_ne_true⟩
  · exact absurd hslot (by simp only [Array.getElem?_empty, reduceCtorEq, not_false_eq_true])
  · exact absurd hsplit.symm (by simp only [List.append_eq_nil_iff, reduceCtorEq, and_false,
      not_false_eq_true])

/-- A new node keeps the numbering, the one whose generation wraps around
    included. -/
theorem Dated.allocate (s : Scene) (past : List Handle) (hs : s.Dated past)
    (hlen : past.length < 2 ^ 32) (node : SceneNode) :
    (s.allocate node).2.Dated (past ++ [(s.allocate node).1]) ∧
      ∀ x, (s.allocate node).2.contains x = true →
        x = (s.allocate node).1 ∨ s.contains x = true := by
  rcases hs.stored.allocate_write s past.length hlen node with
    ⟨h, s', hrun, hstored, hget, hwhere, _, _⟩
  rw [hrun]
  dsimp only
  -- Whatever was in the slot, no other handle names it.
  have hnode : ∀ x, s'.node? x = if h = x then some node else s.node? x := by
    refine s.node?_write s' _ _ hget h rfl rfl fun x hslot _ => ?_
    rw [node?, hslot]
    rcases hwhere with ⟨hidx, _, _⟩ | ⟨old, hold, hnone, _, _⟩
    · rw [hidx, Array.getElem?_eq_none (Nat.le_refl _)]
    · simp only [hold, hnone, ite_self]
  have hcontains : ∀ x, s'.contains x = true → x = h ∨ s.contains x = true :=
    fun x => ((s.views_insert s' h node hnode).2.2 x).mp
  -- The generation counts this use of the slot as well.
  have hgeneration : h.generation.toNat = (uses past h.slot.toNat + 1) % 2 ^ 32 := by
    rcases hwhere with ⟨hidx, hone, _⟩ | ⟨old, hold, _, hnext, _⟩
    · have hunused : uses past h.slot.toNat = 0 := by
        refine List.countP_eq_zero.mpr fun x hx => ?_
        rcases hs.placed x hx with ⟨slot, hslot⟩
        have hlt := (Array.getElem?_eq_some_iff.mp hslot).1
        rw [decide_eq_true_eq, hidx]
        omega
      rw [hone, hunused]
      rfl
    · rw [hnext, UInt32.toNat_add, hs.generation _ _ hold]
      change (uses past h.slot.toNat % 2 ^ 32 + 1) % 2 ^ 32 = _
      omega
  refine ⟨⟨?_, fun i slot hslot => ?_, fun x hx => ?_, fun before x later hsplit => ?_,
    fun x hx => ?_⟩, hcontains⟩
  · rw [List.length_append, List.length_singleton]
    exact hstored
  · rw [uses_append, uses_cons]
    rw [hget] at hslot
    by_cases hi : h.slot.toNat = i
    · rw [if_pos hi, Option.some.injEq] at hslot
      rw [if_pos hi, ← hslot, hgeneration, hi]
      rfl
    · rw [if_neg hi] at hslot
      rw [if_neg hi]
      exact hs.generation i slot hslot
  · rw [hget]
    by_cases hi : h.slot.toNat = x.slot.toNat
    · exact ⟨_, if_pos hi⟩
    · rw [if_neg hi]
      rcases List.mem_append.mp hx with hx | hx
      · exact hs.placed x hx
      · exact absurd (List.mem_singleton.mp hx ▸ rfl) hi
  · rcases List.eq_nil_or_concat later with rfl | ⟨later, z, rfl⟩
    · rcases List.append_inj' hsplit rfl with ⟨rfl, hx⟩
      rw [← List.head_eq_of_cons_eq hx]
      exact hgeneration
    · rw [List.concat_eq_append, ← List.cons_append, ← List.append_assoc] at hsplit
      exact hs.numbered before x later (List.append_inj' hsplit rfl).1
  · rw [List.mem_append, List.mem_singleton]
    exact (hcontains x hx).symm.imp_left (hs.live x)

/-- From one scene to the next nothing comes to life, and no slot gets another
    generation. -/
structure Fades (s s' : Scene) : Prop where
  stored : ∀ n, s.Stored n → s'.Stored n
  generation : ∀ i : Nat, s'.slots[i]?.map Slot.generation = s.slots[i]?.map Slot.generation
  contains : ∀ x, s'.contains x = true → s.contains x = true

namespace Fades

variable (s s₁ s' : Scene)

theorem refl : Fades s s := ⟨fun _ hn => hn, fun _ => rfl, fun _ hx => hx⟩

theorem trans (h : Fades s s₁) (h' : Fades s₁ s') : Fades s s' :=
  ⟨fun n hn => h'.stored n (h.stored n hn), fun i => (h'.generation i).trans (h.generation i),
    fun x hx => h.contains x (h'.contains x hx)⟩

-- The root, the feed and the number of live nodes are kept next to the slots.
theorem of_slots (hslots : s'.slots = s.slots) (hfree : s'.free = s.free) : Fades s s' := by
  refine ⟨fun n hn => hn.of_slots s s' n hslots hfree, fun i => by rw [hslots], fun x hx => ?_⟩
  rw [Scene.contains, node?, hslots] at hx
  exact hx

-- A write under the generation of the slot leaves all generations as they are.
theorem generation_write (i : Nat) (old new : Slot) (hold : s.slots[i]? = some old)
    (hg : new.generation = old.generation) (j : Nat) :
    (s.slots.setIfInBounds i new)[j]?.map Slot.generation = s.slots[j]?.map Slot.generation := by
  rw [slots_set s.slots i old new hold]
  by_cases hj : i = j
  · subst hj
    rw [if_pos rfl, hold, Option.map_some, Option.map_some, hg]
  · rw [if_neg hj]

theorem modify (h : Handle) (f : SceneNode → SceneNode) : Fades s (s.modify h f) := by
  refine ⟨fun n hn => hn.modify s h f n, fun i => ?_, fun x hx => s.contains_modify h f x ▸ hx⟩
  unfold Scene.modify
  cases hn : s.node? h with
  | none => rfl
  | some node =>
      exact generation_write s _ _ ⟨h.generation, some (f node)⟩
        ((s.node?_eq_some_iff h node).mp hn) rfl i

theorem release (h : Handle) : Fades s (s.release h) := by
  refine ⟨fun n hn => hn.release s h n, fun i => ?_, fun x hx => ((s.contains_release h x).mp hx).2⟩
  unfold Scene.release
  by_cases hh : s.contains h = true
  · rw [if_pos hh]
    rcases (s.contains_iff h).mp hh with ⟨node, hn⟩
    exact generation_write s _ _ ⟨h.generation, none⟩ ((s.node?_eq_some_iff h node).mp hn) rfl i
  · rw [if_neg hh]

theorem reap (bound : Nat) (stack : List Handle) : Fades s (s.reap bound stack).2 := by
  induction bound generalizing s stack with
  | zero => exact refl s
  | succ bound ih =>
      cases stack with
      | nil => exact refl s
      | cons h rest =>
          unfold Scene.reap
          cases s.node? h with
          | none => exact ih s rest
          | some n => exact (release s h).trans _ _ _ (ih _ _)

/-- The node on top of the stack is dead afterwards. -/
theorem contains_reap (bound : Nat) (h : Handle) (rest : List Handle) :
    (s.reap (bound + 1) (h :: rest)).2.contains h = false := by
  unfold Scene.reap
  refine Bool.eq_false_iff.mpr fun hh => ?_
  cases hn : s.node? h with
  | none =>
      rw [hn] at hh
      have hlive := (reap s bound rest).contains h hh
      rw [Scene.contains, hn] at hlive
      exact absurd hlive Bool.false_ne_true
  | some n =>
      rw [hn] at hh
      have hlive := (reap (s.release h) bound (n.children.reverse ++ rest)).contains h hh
      exact ((s.contains_release h h).mp hlive).1 rfl

/-- A node is no longer listed, which changes no slot but that of its parent. -/
theorem detaches (h : Handle) (hs₁ : s.Detaches h s₁) : Fades s (s₁.notify (.left h)) := by
  rcases hs₁ with ⟨p, _, rfl⟩ | ⟨_, rfl⟩
  · exact (modify s p _).trans _ _ _ (of_slots _ _ rfl rfl)
  · exact of_slots s _ rfl rfl

end Fades

theorem Dated.fade (s s' : Scene) (past : List Handle) (hs : s.Dated past) (h : Fades s s') :
    s'.Dated past := by
  refine ⟨h.stored _ hs.stored, fun i slot hslot => ?_, fun x hx => ?_, hs.numbered,
    fun x hx => hs.live x (h.contains x hx)⟩
  · have hsame := h.generation i
    rw [hslot, Option.map_some, eq_comm, Option.map_eq_some_iff] at hsame
    rcases hsame with ⟨old, hold, hg⟩
    rw [← hg]
    exact hs.generation i old hold
  · rcases hs.placed x hx with ⟨slot, hslot⟩
    have hsame := h.generation x.slot.toNat
    rw [hslot, Option.map_some, Option.map_eq_some_iff] at hsame
    exact hsame.imp fun _ hnew => hnew.1

/-- The slot of a live node is still there when the node is no longer listed. -/
theorem Detaches.slots_ne (s : Scene) (h : Handle) (s₁ : Scene) (hs₁ : s.Detaches h s₁)
    (hh : s.contains h = true) : (s₁.notify (.left h)).slots.size ≠ 0 := by
  rcases (s.contains_iff h).mp hh with ⟨n, hn⟩
  have hplace := (Fades.detaches s s₁ h hs₁).generation h.slot.toNat
  rw [(s.node?_eq_some_iff h n).mp hn, Option.map_some, Option.map_eq_some_iff] at hplace
  rcases hplace with ⟨slot, hslot, _⟩
  exact Nat.ne_zero_of_lt (Array.getElem?_eq_some_iff.mp hslot).1

end Scene

namespace InPlace

open Scene (Fades Refusal)

/-- A mutation under which nodes can only fade. -/
def Quiet {α : Type} (m : InPlace α) : Prop := ∀ s, Fades s (perform m s).2

namespace Quiet

variable {α β : Type}

theorem of_pure (a : α) : Quiet (pure a) := Fades.refl

theorem of_throw (e : Refusal) : Quiet (throw e : InPlace α) := Fades.refl

theorem of_get : Quiet get := Fades.refl

theorem of_modify (f : Scene → Scene) (hf : ∀ s, Fades s (f s)) : Quiet (modify f) := hf

theorem of_bind (m : InPlace α) (f : α → InPlace β) (hm : Quiet m) (hf : ∀ a, Quiet (f a)) :
    Quiet (m >>= f) := by
  intro s
  rw [perform_bind]
  have hfirst := hm s
  cases hrun : perform m s with
  | mk r s₁ =>
      rw [hrun] at hfirst
      cases r with
      | error e => exact hfirst
      | ok a => exact hfirst.trans s s₁ _ (hf a s₁)

theorem of_require (h : Handle) : Quiet (require h) := by
  refine of_bind _ _ of_get fun s => ?_
  cases s.node? h with
  | none => exact of_throw _
  | some n => exact of_pure n

theorem destroy (h : Handle) : Quiet (InPlace.destroy h) := by
  refine of_bind _ _ (of_require h) fun n => ?_
  have hrest : Quiet (do
      modify (·.notify (.left h))
      modifyGet fun s => s.reap s.slots.size [h]) :=
    of_bind _ _ (of_modify _ fun s => .of_slots s _ rfl rfl) fun _ s => .reap s _ _
  cases n.parent with
  | none => exact of_bind _ _ (of_modify _ fun s => .of_slots s _ rfl rfl) fun _ => hrest
  | some p => exact of_bind _ _ (of_modify _ fun s => .modify s p _) fun _ => hrest

theorem reparent (h p : Handle) : Quiet (InPlace.reparent h p) := by
  refine of_bind _ _ (of_require h) fun n => ?_
  cases n.parent with
  | none => exact of_throw _
  | some q =>
      refine of_bind _ _ (of_require p) fun _ => of_bind _ _ of_get fun s => ?_
      have hrest : Quiet (do
          modify (·.unlist q h)
          modify (·.modify p fun n => { n with children := n.children ++ [h] })
          modify (·.modify h fun n => { n with parent := some p })
          modify (·.notify (.reparented h))) :=
        of_bind _ _ (of_modify _ fun s => .modify s q _) fun _ =>
          of_bind _ _ (of_modify _ fun s => .modify s p _) fun _ =>
            of_bind _ _ (of_modify _ fun s => .modify s h _) fun _ =>
              of_modify _ fun s => .of_slots s _ rfl rfl
      dsimp only
      split
      · exact of_bind _ _ (of_throw _) fun _ => hrest
      · exact hrest

theorem raise (h : Handle) : Quiet (InPlace.raise h) := by
  refine of_bind _ _ (of_require h) fun n => ?_
  cases n.parent with
  | none => exact of_pure _
  | some p => exact of_modify _ fun s => .modify s p _

theorem setLabel (h : Handle) (label : String) : Quiet (InPlace.setLabel h label) :=
  of_bind _ _ (of_require h) fun _ => of_bind _ _ (of_modify _ fun s => .modify s h _) fun _ =>
    of_modify _ fun s => .of_slots s _ rfl rfl

theorem setFlags (h : Handle) (flags : StateFlags) : Quiet (InPlace.setFlags h flags) := by
  refine of_bind _ _ (of_require h) fun n => of_bind _ _ (of_modify _ fun s => .modify s h _)
    fun _ => ?_
  dsimp only
  split
  · exact of_bind _ _ (of_modify _ fun s => .of_slots s _ rfl rfl) fun _ => of_pure _
  · exact of_pure _

end Quiet

/-- A mutation that puts one node into a slot and answers its handle, unless it is
    refused and nothing is changed. -/
def Grants (m : InPlace Handle) : Prop :=
  ∀ s, (∃ e, perform m s = (.error e, s)) ∨
    ∃ node, (perform m s).1 = .ok (s.allocate node).1 ∧
      Fades (s.allocate node).2 (perform m s).2

namespace Grants

theorem createRoot (label : String) (tag : Tag) : Grants (InPlace.createRoot label tag) := by
  intro s
  cases hr : s.root with
  | some r => exact Or.inl ⟨.rootExists, by simp [InPlace.createRoot, hr]⟩
  | none =>
      simp only [InPlace.createRoot, perform_bind, perform_get, hr, Option.isSome_none,
        Bool.false_eq_true, if_false, perform_modifyGet, perform_modify, perform_pure]
      exact Or.inr ⟨_, rfl, .of_slots _ _ rfl rfl⟩

theorem create (p : Handle) (label : String) (tag : Tag) :
    Grants (InPlace.create p label tag) := by
  intro s
  cases hp : s.node? p with
  | none => exact Or.inl ⟨.unknownNode p, by simp [InPlace.create, hp]⟩
  | some n =>
      simp only [InPlace.create, perform_bind, perform_require, hp, perform_modifyGet,
        perform_modify, perform_pure]
      exact Or.inr ⟨_, rfl, (Fades.modify _ p _).trans _ _ _ (.of_slots _ _ rfl rfl)⟩

end Grants

end InPlace

namespace Scene

open InPlace (perform)

section Acts

variable (a : Act) (s : Scene)

-- What an act does, from what the mutation behind it does.
theorem Act.next_of_quiet {α : Type} (m : InPlace α) (f : α → Reply) (hm : InPlace.Quiet m)
    (hf : ∀ x, (f x).creates = 0) (ha : a.inPlace = f <$> m) :
    Fades s (a.next s) ∧ a.hands s = [] := by
  have hquiet := hm s
  refine ⟨?_, List.eq_nil_of_length_eq_zero ?_⟩
  · rw [Act.next, ha, InPlace.perform_map]
    exact hquiet
  · rw [Act.length_hands, Act.creates, Act.answer, ha, InPlace.perform_map]
    cases (perform m s).1 with
    | error e => rfl
    | ok x => exact hf x

theorem Act.next_of_grants (m : InPlace Handle) (hm : InPlace.Grants m)
    (ha : a.inPlace = Reply.node <$> m) :
    (Fades s (a.next s) ∧ a.hands s = []) ∨
      ∃ node, Fades (s.allocate node).2 (a.next s) ∧ a.hands s = [(s.allocate node).1] := by
  rw [Act.next, Act.hands, Act.answer, ha, InPlace.perform_map]
  rcases hm s with ⟨e, hrun⟩ | ⟨node, hanswer, hfades⟩
  · rw [hrun]
    exact Or.inl ⟨Fades.refl s, rfl⟩
  · refine Or.inr ⟨node, hfades, ?_⟩
    rw [hanswer]
    rfl

/-- An act puts one node into a slot and hands out its handle, or it only lets nodes
    fade. -/
theorem Act.next_cases :
    (Fades s (a.next s) ∧ a.hands s = []) ∨
      ∃ node, Fades (s.allocate node).2 (a.next s) ∧ a.hands s = [(s.allocate node).1] := by
  cases a with
  | take => exact Or.inl (next_of_quiet _ s (modifyGet takeFeed) .feed
      (fun s => .of_slots s _ rfl rfl) (fun _ => rfl) rfl)
  | call c =>
      cases c with
      | createRoot label tag => exact next_of_grants _ s _ (.createRoot label tag) rfl
      | create p label tag => exact next_of_grants _ s _ (.create p label tag) rfl
      | destroy h => exact Or.inl (next_of_quiet _ s _ _ (.destroy h) (fun _ => rfl) rfl)
      | reparent h p => exact Or.inl (next_of_quiet _ s _ _ (.reparent h p) (fun _ => rfl) rfl)
      | raise h => exact Or.inl (next_of_quiet _ s _ _ (.raise h) (fun _ => rfl) rfl)
      | setLabel h label =>
          exact Or.inl (next_of_quiet _ s _ _ (.setLabel h label) (fun _ => rfl) rfl)
      | setFlags h flags =>
          exact Or.inl (next_of_quiet _ s _ _ (.setFlags h flags) (fun _ => rfl) rfl)

/-- After a destruction that is not refused the node is dead. -/
theorem Act.contains_destroy (h : Handle) (r : Reply)
    (hr : Act.answer (.call (.destroy h)) s = .ok r) :
    s.contains h = true ∧ (Act.next (.call (.destroy h)) s).contains h = false := by
  cases hn : s.node? h with
  | none =>
      simp [Act.answer, Act.inPlace, Call.inPlace, InPlace.destroy, hn] at hr
  | some n =>
      have hh : s.contains h = true := (s.contains_iff h).mpr ⟨n, hn⟩
      have hparent : s.parent h = n.parent := by
        rw [parent, hn, Option.bind_some]
      refine ⟨hh, ?_⟩
      have hreap : ∀ s₁, s.Detaches h s₁ → ((s₁.notify (.left h)).reap
          (s₁.notify (.left h)).slots.size [h]).2.contains h = false := by
        intro s₁ hs₁
        rcases Nat.exists_eq_succ_of_ne_zero (hs₁.slots_ne s h s₁ hh) with ⟨bound, hbound⟩
        rw [hbound]
        exact Fades.contains_reap _ bound h []
      cases hp : n.parent with
      | none =>
          simpa [Act.next, Act.inPlace, Call.inPlace, InPlace.destroy, hn, hp] using
            hreap _ (Or.inr ⟨hparent.trans hp, rfl⟩)
      | some p =>
          simpa [Act.next, Act.inPlace, Call.inPlace, InPlace.destroy, hn, hp] using
            hreap _ (Or.inl ⟨p, hparent.trans hp, rfl⟩)

end Acts

/-- An act keeps the numbering, and of the handles that were handed out none comes
    to name a node again. -/
theorem Dated.act (a : Act) (s : Scene) (past : List Handle) (hs : s.Dated past)
    (hlen : past.length + a.creates s ≤ 2 ^ 32) :
    (a.next s).Dated (past ++ a.hands s) ∧
      ∀ x ∈ past, s.contains x = false → (a.next s).contains x = false := by
  rcases Act.next_cases a s with ⟨hfades, hhands⟩ | ⟨node, hfades, hhands⟩
  · rw [hhands, List.append_nil]
    refine ⟨hs.fade s _ past hfades, fun x _ hx => Bool.eq_false_iff.mpr fun hx' => ?_⟩
    rw [hfades.contains x hx'] at hx
    exact Bool.noConfusion hx
  · rw [← Act.length_hands, hhands, List.length_singleton] at hlen
    rw [hhands]
    rcases hs.allocate s past (by omega) node with ⟨hdated, hnew⟩
    have hnodup := hdated.numbered.nodup (past ++ [(s.allocate node).1])
      (by rw [List.length_append, List.length_singleton]; exact hlen)
    refine ⟨hdated.fade _ _ _ hfades, fun x hx hdead => Bool.eq_false_iff.mpr fun hx' => ?_⟩
    rcases hnew x (hfades.contains x hx') with rfl | hlive
    · exact (List.nodup_append.mp hnodup).2.2 _ hx _ List.mem_cons_self rfl
    · rw [hlive] at hdead
      exact Bool.noConfusion hdead

/-- The same of several acts, one after the other. -/
theorem Dated.after (acts : List Act) (s : Scene) (past : List Handle) (hs : s.Dated past)
    (hlen : past.length + created acts s ≤ 2 ^ 32) :
    (after acts s).Dated (past ++ handed acts s) ∧
      ∀ x ∈ past, s.contains x = false → (after acts s).contains x = false := by
  induction acts generalizing s past with
  | nil =>
      rw [handed, List.append_nil]
      exact ⟨hs, fun _ _ hx => hx⟩
  | cons a acts ih =>
      rw [created] at hlen
      rcases hs.act a s past (by omega) with ⟨hdated, hdead⟩
      rcases ih (a.next s) (past ++ a.hands s) hdated
        (by rw [List.length_append, Act.length_hands]; omega) with ⟨hlast, hkept⟩
      refine ⟨?_, fun x hx hx' => hkept x (List.mem_append_left _ hx) (hdead x hx hx')⟩
      rw [handed, ← List.append_assoc]
      exact hlast

/-- The handle that has to name a node for a mutation to be made. -/
def Call.target : Call → Option Handle
  | createRoot _ _ => none
  | create p _ _ => some p
  | destroy h | reparent h _ | raise h | setLabel h _ | setFlags h _ => some h

/-- A scene knows nothing of a handle, and refuses it wherever it has to name a
    node. -/
structure Stale (s : Scene) (h : Handle) : Prop where
  contains : s.contains h = false
  parent : s.parent h = none
  label : s.label h = none
  flags : s.flags h = none
  describe : s.describe h = none
  refused : ∀ c : Call, c.target = some h → (Act.call c).answer s = .error (.unknownNode h)

theorem Stale.of_dead (s : Scene) (h : Handle) (hh : s.contains h = false) : s.Stale h := by
  have hn : s.node? h = none := Option.not_isSome_iff_eq_none.mp (Bool.eq_false_iff.mp hh)
  refine ⟨hh, by rw [Scene.parent, hn, Option.bind_none], by rw [Scene.label, hn, Option.map_none],
    by rw [Scene.flags, hn, Option.map_none], by rw [Scene.describe, hn, Option.map_none],
    fun c hc => ?_⟩
  cases c <;> simp only [Call.target, Option.some.injEq, reduceCtorEq] at hc <;> subst hc <;>
    simp [Act.answer, Act.inPlace, Call.inPlace, InPlace.create, InPlace.destroy,
      InPlace.reparent, InPlace.raise, InPlace.setLabel, InPlace.setFlags, hn]

/-- In a scene that was empty at first no handle is handed out twice, as long as no
    more nodes are created than there are generations. So a scene refuses the
    handle of a dead node forever, whether it was destroyed itself or a node
    above it. -/
theorem handed_once (acts : List Act) (hn : created acts {} ≤ 2 ^ 32) :
    (handed acts {}).Nodup ∧
      (∀ early late, early <+: late → late <+: acts → ∀ h ∈ handed early {},
        (after early {}).contains h = false → (after late {}).Stale h) ∧
      ∀ early late h r, early ++ [.call (.destroy h)] <+: late → late <+: acts →
        Act.answer (.call (.destroy h)) (after early {}) = .ok r → (after late {}).Stale h := by
  have hreached : ∀ early late, early <+: late → late <+: acts →
      (after early {}).Dated (handed early {}) ∧ ∀ h ∈ handed early {},
        (after early {}).contains h = false → (after late {}).contains h = false := by
    rintro early _ ⟨mid, rfl⟩ ⟨rest, rfl⟩
    rw [created_append, created_append] at hn
    have hbefore := (dated_empty.after early {} [] (by rw [List.length_nil]; omega)).1
    rw [List.nil_append] at hbefore
    rw [after_append]
    exact ⟨hbefore, (hbefore.after mid _ _ (by rw [length_handed]; omega)).2⟩
  refine ⟨?_, fun early late hearly hlate h hh hdead =>
    Stale.of_dead _ h ((hreached early late hearly hlate).2 h hh hdead),
    fun early late h r hearly hlate hr => Stale.of_dead _ h ?_⟩
  · have hdated := (hreached acts acts (List.prefix_refl _) (List.prefix_refl _)).1
    exact hdated.numbered.nodup _ (by rwa [length_handed])
  · rcases Act.contains_destroy _ h r hr with ⟨hlive, hdead⟩
    have hbefore := (hreached early late ((List.prefix_append _ _).trans hearly) hlate).1
    refine (hreached _ late hearly hlate).2 h ?_ ?_
    · rw [handed_append]
      exact List.mem_append_left _ (hbefore.live h hlive)
    · rw [after_append]
      exact hdead

-- The second child of the root gets the slot of the first one, and its own handle.
theorem handed_once_reuse :
    let first := Handle.ofParts 1 1
    created reuse {} ≤ 2 ^ 32 ∧
      handed reuse {} = [.ofParts 0 1, first, .ofParts 2 1, .ofParts 1 2] ∧
      (handed reuse {}).Nodup ∧ (after reuse {}).contains (.ofParts 1 2) = true ∧
      (after reuse {}).Stale first := by
  have hcreated : created reuse {} ≤ 2 ^ 32 := by decide +kernel
  have hanswer : Act.answer (.call (.destroy (.ofParts 1 1))) (after (reuse.take 3) {}) =
      .ok (.count 1) := by decide +kernel
  rcases handed_once reuse hcreated with ⟨hnodup, _, hstale⟩
  exact ⟨hcreated, by decide +kernel, hnodup, by decide +kernel,
    hstale (reuse.take 3) reuse _ _ (by decide +kernel) (List.prefix_refl _) hanswer⟩

end Scene

end TreeWatch
