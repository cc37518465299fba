import TreeWatch.Proofs.Census

/-!
# Mutations That Stop

The tables of a scene are read without asking whether the index is in range, and
its counts go up and down without asking whether they fit a machine word. The
mutations that do ask stop with a fault instead. Here each of them is the plain
mutation behind its questions.

In a scene that keeps its books the answers are known. The slots that can be used
again exist, each live node has a slot of its own, and there are not more slots
than nodes were created. So a count of nodes is neither zero while a node is
still to die nor near the end of a machine word.

## Main definitions

* `Scene.Guarded`: The parts of a mutation, with their questions.
* `Scene.Call.guarded`: A mutation that stops.

## Theorems

* `Scene.Counted.live_le`: No more nodes are live than there are slots.
* `Scene.Guarded.reapAll_eq`: No count fails while a subtree dies.
* `Scene.Call.guarded_eq`: No mutation stops.
-/

namespace TreeWatch

-- One more than `2 ^ 32` is far from the end of a machine word.
theorem addCounts_one (k : Nat) (hk : k ≤ 2 ^ 32) : addCounts k 1 = .ok (k + 1) := by
  refine if_pos ?_
  change k + 1 < 2 ^ 64
  omega

-- A walk meets at most as many nodes as its bound allows.
theorem Forest.length_preorder_le (children : Handle → List Handle) (bound : Nat)
    (stack : List Handle) : (preorder children bound stack).length ≤ bound := by
  induction bound generalizing stack with
  | zero => exact Nat.le_refl 0
  | succ bound ih =>
      cases stack with
      | nil => exact Nat.zero_le _
      | cons h rest => exact Nat.succ_le_succ (ih _)

namespace Scene

namespace Guarded

/-- Put a node into a slot. One more node has to be countable, and a slot that is
    used again has to exist. -/
def allocate (s : Scene) (n : SceneNode) : Except Fault (Handle × Scene) := do
  let _ ← addCounts s.live 1
  match s.free with
  | i :: _ =>
    if i.toNat < s.slots.size then return s.allocate n
    else throw (.indexOutOfRange i.toNat s.slots.size)
  | [] => return s.allocate n

/-- Create the root. -/
def createRoot (s : Scene) (label : String) (tag : Tag) :
    Except Fault (Except Refusal (Handle × Scene)) :=
  if s.root.isSome then return .error .rootExists
  else do
    let (h, s) ← allocate s { label := label, tag := tag, parent := none }
    return .ok (h, { s with root := some h }.notify (.entered h))

/-- Create a node as the last child of `parent`. -/
def create (s : Scene) (parent : Handle) (label : String) (tag : Tag) :
    Except Fault (Except Refusal (Handle × Scene)) :=
  if !s.contains parent then return .error (.unknownNode parent)
  else do
    let (h, s) ← allocate s { label := label, tag := tag, parent := some parent }
    let s := s.modify parent fun n => { n with children := n.children ++ [h] }
    return .ok (h, s.notify (.entered h))

/-- Empty the slot of a live node. There has to be a live node left to count. -/
def release (s : Scene) (h : Handle) : Except Fault Scene := do
  if s.contains h then
    let _ ← subtractCounts s.live 1
    return s.release h
  else return s

/-- Count a node that dies, and empty its slot. -/
def reap (acc : Nat × Scene) (h : Handle) : Except Fault (Nat × Scene) := do
  return (← addCounts acc.1 1, ← release acc.2 h)

/-- Destroy a node and all below it. -/
def destroy (s : Scene) (h : Handle) : Except Fault (Except Refusal (Nat × Scene)) :=
  match s.node? h with
  | none => return .error (.unknownNode h)
  | some n => do
    let s := match n.parent with
      | some p => s.unlist p h
      | none => { s with root := none }
    let s := s.notify (.left h)
    let dying := Forest.preorder (fun x => (s.children x).reverse) s.slots.size [h]
    return .ok (← dying.foldlM reap (0, s))

end Guarded

/-- The scene after a mutation, unless it is refused. The other mutations ask for
    no place of a table and count nothing. -/
def Call.guarded (s : Scene) : Call → Except Fault (Except Refusal Scene)
  | createRoot label tag => do return (← Guarded.createRoot s label tag).map Prod.snd
  | create parent label tag => do return (← Guarded.create s parent label tag).map Prod.snd
  | destroy node => do return (← Guarded.destroy s node).map Prod.snd
  | c => return c.run s

section Guards

variable (s : Scene) (n : Nat) (hs : s.Stored n) (hn : n < 2 ^ 32) (hc : s.Counted)

include hc in
/-- Each live node has a slot of its own. -/
theorem Counted.live_le : s.live ≤ s.slots.size := by
  rw [← s.length_places, hc]
  exact Forest.ncard_le_length _ s.places s.mem_places

namespace Guarded

section Allocate

variable (hlive : s.live ≤ 2 ^ 32)

include hs hlive

theorem allocate_eq (node : SceneNode) : allocate s node = .ok (s.allocate node) := by
  unfold allocate
  rw [addCounts_one s.live hlive]
  cases hfree : s.free with
  | nil => rfl
  | cons i free =>
      rcases hs.vacant i (hfree ▸ List.mem_cons_self) with ⟨slot, hslot, _⟩
      exact if_pos (Array.getElem?_eq_some_iff.mp hslot).1

theorem createRoot_eq (label : String) (tag : Tag) :
    createRoot s label tag = .ok (s.createRoot label tag) := by
  unfold createRoot Scene.createRoot
  rw [allocate_eq s n hs hlive]
  cases s.root <;> rfl

theorem create_eq (p : Handle) (label : String) (tag : Tag) :
    create s p label tag = .ok (s.create p label tag) := by
  unfold create Scene.create
  rw [allocate_eq s n hs hlive]
  cases s.contains p <;> rfl

end Allocate

include hc in
/-- The number of live nodes is right, so it is not zero as long as one of them is
    still to die. -/
theorem release_eq (h : Handle) : release s h = .ok (s.release h) := by
  unfold release
  by_cases hh : s.contains h = true
  · have hfinite : {x | s.contains x = true}.Finite :=
      s.places.finite_toSet.subset fun x hx => s.mem_places x hx
    have hlive : 1 ≤ s.live := by
      rw [hc]
      exact Nat.one_le_iff_ne_zero.mpr (Set.ncard_ne_zero_of_mem (a := h) hh hfinite)
    rw [if_pos hh, subtractCounts, if_pos hlive]
    rfl
  · rw [if_neg hh, Scene.release, if_neg hh]
    rfl

include hc in
/-- All of a subtree dies, and the nodes are counted. -/
theorem reapAll_eq (dying : List Handle) (k : Nat) (hk : k + dying.length ≤ 2 ^ 32) :
    dying.foldlM reap (k, s) = .ok (k + dying.length, dying.foldl Scene.release s) := by
  induction dying generalizing s k with
  | nil => rfl
  | cons h dying ih =>
      rw [List.length_cons] at hk ⊢
      have hreap : reap (k, s) h = .ok (k + 1, s.release h) := by
        unfold reap
        rw [addCounts_one k (by omega), release_eq s hc]
        rfl
      rw [List.foldlM_cons, hreap]
      refine (ih (s.release h) (hc.release s h) (k + 1) (by omega)).trans ?_
      rw [List.foldl_cons, Nat.add_assoc, Nat.add_comm 1]

include hs hn hc in
theorem destroy_eq (h : Handle) : destroy s h = .ok (s.destroy h) := by
  have hfew := hs.few
  unfold destroy Scene.destroy
  cases s.node? h with
  | none => rfl
  | some node =>
      dsimp only
      rw [reapAll_eq]
      · rw [Nat.zero_add]
        rfl
      · cases node.parent with
        | none => exact hc.congr s _ rfl fun _ => rfl
        | some p => exact (hc.modify s p _).congr _ _ rfl fun _ => rfl
      · refine (Nat.zero_add _).trans_le ((Forest.length_preorder_le _ _ _).trans ?_)
        cases node.parent with
        | none => exact hfew.trans hn.le
        | some p => exact (s.size_modify p _).trans_le (hfew.trans hn.le)

end Guarded

include hs hn hc

/-- No mutation of a scene stops that keeps its books and in which less than
    `2 ^ 32` nodes were created. -/
theorem Call.guarded_eq (c : Call) : c.guarded s = .ok (c.run s) := by
  have hlive : s.live ≤ 2 ^ 32 := (hc.live_le s).trans (hs.few.trans hn.le)
  cases c with
  | createRoot label tag =>
      simp only [guarded, Guarded.createRoot_eq s n hs hlive]
      rfl
  | create p label tag =>
      simp only [guarded, Guarded.create_eq s n hs hlive]
      rfl
  | destroy h =>
      simp only [guarded, Guarded.destroy_eq s n hs hn hc]
      rfl
  | reparent h p => rfl
  | raise h => rfl
  | setLabel h label => rfl
  | setFlags h flags => rfl

end Guards

end Scene

end TreeWatch
