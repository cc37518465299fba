import TreeWatch.Proofs.SceneTree

/-!
# Mutations in Place

A mutation of a scene is defined as one step: it leads to the scene after it or
is refused. A scene that is changed in place has to do more for that. The
checks and the writes of a mutation come one after the other, and what was
written before a check fails would stay. The mutations are written out here as
such sequences, over a state that a refusal does not restore, and each of them
answers and leaves behind what the one step says. So a refusal leaves the
scene as it was: every check comes before the first write.

A destruction in place reads the children of a node when it empties the slot of
the node, while a part of the subtree is gone already, and counts the slots on
the way. The one step walks the subtree first and empties the slots then. The
two agree because the walk comes to no node twice.

## Main definitions

* `InPlace`: A mutation that changes a scene in place.
* `Scene.reap`: The destruction of subtrees, slot by slot.
* `Scene.settle`: The answer and the scene after a mutation that is one step.
* `Scene.Reply`: What a scene answers.
* `Scene.Call.inPlace`: A mutation with its arguments, in place.

## Theorems

* `Scene.reap_eq_of_walk`: Emptying the slots during the walk is emptying them
  after it.
* `Scene.createRoot_inPlace`, `Scene.create_inPlace`,
  `Scene.Sound.destroy_inPlace`, `Scene.reparent_inPlace`,
  `Scene.raise_inPlace`, `Scene.setLabel_inPlace`, `Scene.setFlags_inPlace`:
  Each mutation in place is the one step.
* `Scene.Sound.call_inPlace`: A mutation is made as a whole, or it is refused
  and nothing is changed.
-/

namespace TreeWatch

open Forest (Walk)

open Scene (Refusal)

/-- A mutation that changes a scene in place. What it wrote stays written, even
    if it is refused afterwards. -/
abbrev InPlace (α : Type) := ExceptT Refusal (StateM Scene) α

/-- Empty the slots of the nodes on a stack and of all below them, at most
    `bound` of them. The children of a node go onto the stack when its slot has
    been emptied. The result is how many slots were emptied. -/
def Scene.reap : Nat → List Handle → Scene → Nat × Scene
  | 0, _, s => (0, s)
  | _ + 1, [], s => (0, s)
  | bound + 1, h :: rest, s =>
    match s.node? h with
    | none => reap bound rest s
    | some n =>
      let (count, s) := reap bound (n.children.reverse ++ rest) (s.release h)
      (count + 1, s)

namespace InPlace

/-- The answer of a mutation, and the scene that it leaves behind. -/
def perform {α : Type} (m : InPlace α) (s : Scene) : Except Refusal α × Scene := m s

section Perform

variable {α β : Type} (s : Scene)

@[simp] theorem perform_pure (a : α) : perform (pure a) s = (.ok a, s) := rfl

@[simp] theorem perform_throw (e : Refusal) :
    perform (throw e : InPlace α) s = (.error e, s) := rfl

@[simp] theorem perform_get : perform get s = (.ok s, s) := rfl

@[simp] theorem perform_modify (f : Scene → Scene) :
    perform (modify f) s = (.ok ⟨⟩, f s) := rfl

@[simp] theorem perform_modifyGet (f : Scene → α × Scene) :
    perform (modifyGet f) s = (.ok (f s).1, (f s).2) := rfl

-- The second part goes on where the first one stopped, unless it was refused.
@[simp] theorem perform_bind (m : InPlace α) (f : α → InPlace β) :
    perform (m >>= f) s = match perform m s with
      | (.ok a, s') => perform (f a) s'
      | (.error e, s') => (.error e, s') := by
  change (match m s with | (r, s') => ExceptT.bindCont f r s') = _
  rw [perform]
  rcases m s with ⟨_ | _, _⟩ <;> rfl

@[simp] theorem perform_map (m : InPlace α) (f : α → β) :
    perform (f <$> m) s = ((perform m s).1.map f, (perform m s).2) := by
  change perform (m >>= fun a => pure (f a)) s = _
  rw [perform_bind]
  rcases perform m s with ⟨_ | _, _⟩ <;> rfl

end Perform

/-- The node that a handle names, or a refusal. -/
def require (h : Handle) : InPlace SceneNode := do
  match (← get).node? h with
  | some n => return n
  | none => throw (.unknownNode h)

@[simp] theorem perform_require (h : Handle) (s : Scene) :
    perform (require h) s = match s.node? h with
      | some n => (.ok n, s)
      | none => (.error (.unknownNode h), s) := by
  rw [require, perform_bind, perform_get]
  cases hn : s.node? h <;> simp only [hn, perform_pure, perform_throw]

def createRoot (label : String) (tag : Tag) : InPlace Handle := do
  if (← get).root.isSome then throw .rootExists
  let h ← modifyGet (·.allocate { label := label, tag := tag, parent := none })
  modify fun s => { s with root := some h }
  modify (·.notify (.entered h))
  return h

def create (parent : Handle) (label : String) (tag : Tag) : InPlace Handle := do
  let _ ← require parent
  let h ← modifyGet (·.allocate { label := label, tag := tag, parent := some parent })
  modify (·.modify parent fun n => { n with children := n.children ++ [h] })
  modify (·.notify (.entered h))
  return h

def destroy (h : Handle) : InPlace Nat := do
  let n ← require h
  match n.parent with
  | some p => modify (·.unlist p h)
  | none => modify fun s => { s with root := none }
  modify (·.notify (.left h))
  modifyGet fun s => s.reap s.slots.size [h]

def reparent (h newParent : Handle) : InPlace Unit := do
  let n ← require h
  match n.parent with
  | none => throw (.rootMove h)
  | some oldParent =>
    let _ ← require newParent
    let s ← get
    if s.liesBelow h s.slots.size newParent then throw (.wouldCycle h newParent)
    modify (·.unlist oldParent h)
    modify (·.modify newParent fun n => { n with children := n.children ++ [h] })
    modify (·.modify h fun n => { n with parent := some newParent })
    modify (·.notify (.reparented h))

def raise (h : Handle) : InPlace Unit := do
  let n ← require h
  match n.parent with
  | none => return
  | some p => modify (·.modify p fun n => { n with children := n.children.filter (· ≠ h) ++ [h] })

def setLabel (h : Handle) (label : String) : InPlace Unit := do
  let _ ← require h
  modify (·.modify h fun n => { n with label := label })
  modify (·.notify (.attributes h Attributes.label))

def setFlags (h : Handle) (flags : StateFlags) : InPlace Attributes := do
  let n ← require h
  let kinds := Attributes.ofTransition n.flags flags
  modify (·.modify h fun n => { n with flags := flags })
  if !kinds.isEmpty then modify (·.notify (.attributes h kinds))
  return kinds

end InPlace

namespace Scene

open InPlace (perform)

/-- The answer of a mutation that is made or refused as a whole, and the scene
    after it. -/
def settle {α : Type} (s : Scene) : Except Refusal (α × Scene) → Except Refusal α × Scene
  | .ok (a, s') => (.ok a, s')
  | .error e => (.error e, s)

/-- Emptying the slots during a walk that comes to no node twice is emptying
    them after it. The children of a node are still what they were when the
    walk comes to it, because only the slots of other nodes are empty then. -/
theorem reap_eq_of_walk (roots out : List Handle) (s : Scene)
    (hw : Walk (fun x => (s.children x).reverse) roots out) (hnd : out.Nodup)
    (hlive : ∀ x ∈ out, s.contains x = true) :
    ∀ bound, out.length ≤ bound → s.reap bound roots = (out.length, out.foldl release s) := by
  induction out generalizing roots s with
  | nil =>
      intro bound _
      cases hw
      cases bound <;> rfl
  | cons h out ih =>
      intro bound hb
      rcases List.nodup_cons.mp hnd with ⟨hh, hnd⟩
      cases hw with
      | visit _ rest _ hw =>
          cases bound with
          | zero => exact absurd hb (by rw [List.length_cons]; omega)
          | succ k =>
              rcases (s.contains_iff h).mp (hlive h List.mem_cons_self) with ⟨n, hn⟩
              have hkids : s.children h = n.children := by
                rw [children_eq, hn, Option.map_some, Option.getD_some]
              have hsame : ∀ x ∈ out, (s.release h).node? x = s.node? x := by
                intro x hx
                have hne : h ≠ x := fun he => hh (he ▸ hx)
                rw [node?_release, if_neg hne]
              have hw' : Walk (fun x => ((s.release h).children x).reverse)
                  (n.children.reverse ++ rest) out := by
                rw [← hkids]
                exact hw.congr _ out fun x hx => by
                  rw [(views_congr s (s.release h) x (hsame x hx)).2.1]
              have hlive' : ∀ x ∈ out, (s.release h).contains x = true := by
                intro x hx
                rw [(views_congr s (s.release h) x (hsame x hx)).2.2]
                exact hlive x (List.mem_cons_of_mem h hx)
              have hrest := ih _ (s.release h) hw' hnd hlive' k (Nat.le_of_succ_le_succ hb)
              simp only [reap, hn, hrest, List.length_cons, List.foldl_cons]

section Equal

variable (s : Scene)

theorem createRoot_inPlace (label : String) (tag : Tag) :
    perform (InPlace.createRoot label tag) s = s.settle (s.createRoot label tag) := by
  unfold InPlace.createRoot Scene.createRoot
  cases hr : s.root <;> simp [hr, settle, Except.map]

theorem create_inPlace (parent : Handle) (label : String) (tag : Tag) :
    perform (InPlace.create parent label tag) s = s.settle (s.create parent label tag) := by
  unfold InPlace.create Scene.create
  cases hp : s.node? parent <;> simp [hp, contains, settle, Except.map]

theorem reparent_inPlace (h newParent : Handle) :
    perform (InPlace.reparent h newParent) s =
      s.settle ((s.reparent h newParent).map fun s' => ((), s')) := by
  unfold InPlace.reparent Scene.reparent
  cases hn : s.node? h with
  | none => simp [hn, settle, Except.map]
  | some n =>
      cases hq : n.parent with
      | none => simp [hn, hq, settle, Except.map]
      | some q =>
          cases hp : s.node? newParent with
          | none => simp [hn, hq, hp, contains, settle, Except.map]
          | some p =>
              cases hb : s.liesBelow h s.slots.size newParent <;>
                simp [hn, hq, hp, hb, contains, settle, Except.map]

theorem raise_inPlace (h : Handle) :
    perform (InPlace.raise h) s = s.settle ((s.raise h).map fun s' => ((), s')) := by
  unfold InPlace.raise Scene.raise
  cases hn : s.node? h with
  | none => simp [hn, settle, Except.map]
  | some n => cases hp : n.parent <;> simp [hn, hp, settle, Except.map]

theorem setLabel_inPlace (h : Handle) (label : String) :
    perform (InPlace.setLabel h label) s =
      s.settle ((s.setLabel h label).map fun s' => ((), s')) := by
  unfold InPlace.setLabel Scene.setLabel
  cases hn : s.node? h <;> simp [hn, contains, settle, Except.map]

theorem setFlags_inPlace (h : Handle) (flags : StateFlags) :
    perform (InPlace.setFlags h flags) s = s.settle (s.setFlags h flags) := by
  unfold InPlace.setFlags Scene.setFlags
  cases hn : s.node? h with
  | none => simp [hn, settle]
  | some n =>
      cases hk : (Attributes.ofTransition n.flags flags).isEmpty <;>
        simp [hn, hk, settle, Except.map]

end Equal

/-- A destruction in place. The number of slots bounds it, and no subtree has
    more nodes. -/
theorem Sound.destroy_inPlace (s : Scene) (n : Nat) (hs : s.Sound n) (h : Handle) :
    perform (InPlace.destroy h) s = s.settle (s.destroy h) := by
  unfold InPlace.destroy Scene.destroy
  cases hn : s.node? h with
  | none => simp [hn, settle]
  | some node =>
      have hh : s.contains h = true := (s.contains_iff h).mpr ⟨node, hn⟩
      have hparent : s.parent h = node.parent := by
        rw [parent, hn, Option.bind_some]
      -- Whichever way the node was taken out, the walk is the one over its subtree.
      have hreap : ∀ s₁, s.Detaches h s₁ →
          (s₁.notify (.left h)).reap (s₁.notify (.left h)).slots.size [h] =
            let dying := Forest.preorder (fun x => ((s₁.notify (.left h)).children x).reverse)
              (s₁.notify (.left h)).slots.size [h]
            (dying.length, dying.foldl release (s₁.notify (.left h))) := by
        intro s₁ hs₁
        rcases hs.unlist_spec s n h hh s₁ hs₁ with ⟨_, _, _, hsize, _, _, hlive, hkept, _, _⟩
        rcases hs.dying_walk s n h hh s₁ hsize hkept with ⟨out, hw, hnd, hlen, hmem⟩
        have hw' : Walk (fun x => ((s₁.notify (.left h)).children x).reverse) [h] out := hw
        have hlen' : out.length ≤ (s₁.notify (.left h)).slots.size := hlen
        rw [Forest.preorder_eq_of_walk [h] out hw' _ hlen']
        refine reap_eq_of_walk [h] out (s₁.notify (.left h)) hw' hnd (fun x hx => ?_) _ hlen
        refine (hlive x).trans ((hs.live x).mpr ?_)
        exact Forest.held_of_above s.root s.parent x h ((hmem x).mp hx) ((hs.live h).mp hh)
      cases hp : node.parent with
      | none => simp [hn, hp, settle, hreap _ (Or.inr ⟨hparent.trans hp, rfl⟩)]
      | some p => simp [hn, hp, settle, hreap _ (Or.inl ⟨p, hparent.trans hp, rfl⟩)]

/-- What a scene answers. -/
inductive Reply where
  /-- The handle of the node that was created. -/
  | node (h : Handle)
  /-- How many nodes died. -/
  | count (n : Nat)
  /-- The kinds of attributes that changed. -/
  | kinds (k : Attributes)
  /-- All is done, and there is nothing to tell. -/
  | done
  /-- What the feed held. -/
  | feed (tasks : List Task)
deriving DecidableEq

/-- How many nodes were created. -/
def Reply.creates : Reply → Nat
  | .node _ => 1
  | _ => 0

/-- A mutation with its arguments, in place. -/
def Call.inPlace : Call → InPlace Reply
  | createRoot label tag => .node <$> InPlace.createRoot label tag
  | create parent label tag => .node <$> InPlace.create parent label tag
  | destroy node => .count <$> InPlace.destroy node
  | reparent node parent => (fun _ => .done) <$> InPlace.reparent node parent
  | raise node => (fun _ => .done) <$> InPlace.raise node
  | setLabel node label => (fun _ => .done) <$> InPlace.setLabel node label
  | setFlags node flags => .kinds <$> InPlace.setFlags node flags

-- The two ways in which a mutation that is one step can end.
theorem settle_cases {α : Type} (s : Scene) (o : Except Refusal (α × Scene)) (f : α → Reply)
    (k : Nat) (run : Except Refusal Scene) (hf : ∀ a, (f a).creates = k)
    (hrun : o.map Prod.snd = run) :
    (∃ r s', ((s.settle o).1.map f, (s.settle o).2) = (.ok r, s') ∧ run = .ok s' ∧
      r.creates = k) ∨
      ∃ e, ((s.settle o).1.map f, (s.settle o).2) = (.error e, s) ∧ run = .error e := by
  rcases o with e | ⟨a, s'⟩
  · exact Or.inr ⟨e, rfl, hrun.symm⟩
  · exact Or.inl ⟨f a, s', rfl, hrun.symm, hf a⟩

-- Pairing a scene with nothing is harmless.
theorem map_snd_unit (o : Except Refusal Scene) :
    (o.map fun s' => ((), s')).map Prod.snd = o := by
  cases o <;> rfl

/-- A mutation in place is made as a whole, as the one step makes it, or it is
    refused and nothing is changed. -/
theorem Sound.call_inPlace (s : Scene) (n : Nat) (hs : s.Sound n) (c : Call) :
    (∃ r s', perform c.inPlace s = (.ok r, s') ∧ c.run s = .ok s' ∧ r.creates = c.creates) ∨
      ∃ e, perform c.inPlace s = (.error e, s) ∧ c.run s = .error e := by
  cases c with
  | createRoot label tag =>
      rw [Call.inPlace, InPlace.perform_map, createRoot_inPlace]
      exact settle_cases s _ _ 1 _ (fun _ => rfl) rfl
  | create parent label tag =>
      rw [Call.inPlace, InPlace.perform_map, create_inPlace]
      exact settle_cases s _ _ 1 _ (fun _ => rfl) rfl
  | destroy node =>
      rw [Call.inPlace, InPlace.perform_map, hs.destroy_inPlace]
      exact settle_cases s _ _ 0 _ (fun _ => rfl) rfl
  | reparent node parent =>
      rw [Call.inPlace, InPlace.perform_map, reparent_inPlace]
      exact settle_cases s _ _ 0 _ (fun _ => rfl) (map_snd_unit _)
  | raise node =>
      rw [Call.inPlace, InPlace.perform_map, raise_inPlace]
      exact settle_cases s _ _ 0 _ (fun _ => rfl) (map_snd_unit _)
  | setLabel node label =>
      rw [Call.inPlace, InPlace.perform_map, setLabel_inPlace]
      exact settle_cases s _ _ 0 _ (fun _ => rfl) (map_snd_unit _)
  | setFlags node flags =>
      rw [Call.inPlace, InPlace.perform_map, setFlags_inPlace]
      exact settle_cases s _ _ 0 _ (fun _ => rfl) rfl

end Scene

end TreeWatch
