import TreeWatch.Scene.Basic

/-!
# Scene operations

Mutations that name nodes by their position among the live nodes in pre-order,
taken around the end, so that any operation can be applied to any scene.
Operations that a scene would refuse change nothing.

## Main definitions

* `SceneOp`: An operation.
* `SceneOp.apply`: An operation applied, with the answer whether it changed the
  scene.
* `Scene.populate`: A scene of a regular shape.
-/

namespace TreeWatch

/-- A mutation of a scene. Nodes are named by position. -/
inductive SceneOp where
  /-- Append a node to the children of the picked one. -/
  | create (parent : Nat) (tag : Tag)
  /-- Destroy the picked node, unless it is the root. -/
  | destroy (target : Nat)
  /-- Move the picked node to another picked parent. -/
  | reparent (target parent : Nat)
  /-- Move the picked node to the top of the paint order. -/
  | raise (target : Nat)
  /-- Replace the flags of the picked node. -/
  | setFlags (target : Nat) (flags : StateFlags)
  /-- Rename the picked node. -/
  | rename (target : Nat)
  /-- Destroy the whole scene and build a fresh root. -/
  | replaceRoot
deriving DecidableEq

namespace SceneOp

/-- Whether the operation creates a node under another. -/
def isCreate : SceneOp → Bool
  | create _ _ => true
  | _ => false

/-- The node at a position, counted around the end. -/
def pick (handles : List Handle) (i : Nat) : Option Handle := handles[i % handles.length]?

/-- The scene after a mutation that may be refused, with the answer whether it
    was made. -/
def made {α : Type} (s : Scene) (r : Except Scene.Refusal (α × Scene)) : Bool × Scene :=
  match r with
  | .ok (_, s) => (true, s)
  | .error _ => (false, s)

/-- The same for a mutation without a result. -/
def done (s : Scene) (r : Except Scene.Refusal Scene) : Bool × Scene :=
  match r with
  | .ok s => (true, s)
  | .error _ => (false, s)

/-- Destroy the whole scene and build a fresh root with one child. -/
def renew (s : Scene) : Bool × Scene :=
  let s := match s.root with
    | some old => (made s (s.destroy old)).2
    | none => s
  match s.createRoot "root" Tag.root with
  | .ok (root, s) => (true, (made s (s.create root "content" Tag.item)).2)
  | .error _ => (false, s)

/-- Apply an operation. The answer says whether the scene changed. In an empty
    scene a creation makes the root. -/
def apply (op : SceneOp) (s : Scene) : Bool × Scene :=
  let handles := s.handles
  match op with
  | create parent tag =>
    match pick handles parent with
    | some p => made s (s.create p ("n" ++ Nat.repr handles.length) tag)
    | none => made s (s.createRoot "root" Tag.root)
  | destroy target =>
    match pick handles target with
    | some h => if s.root = some h then (false, s) else made s (s.destroy h)
    | none => (false, s)
  | reparent target parent =>
    match pick handles target, pick handles parent with
    | some h, some p => if s.parent h = some p then (false, s) else done s (s.reparent h p)
    | _, _ => (false, s)
  | raise target =>
    match pick handles target with
    | some h => done s (s.raise h)
    | none => (false, s)
  | setFlags target flags =>
    match pick handles target with
    | some h =>
      match s.setFlags h flags with
      | .ok (kinds, s) => (!kinds.isEmpty, s)
      | .error _ => (false, s)
    | none => (false, s)
  | rename target =>
    match pick handles target with
    | some h => done s (s.setLabel h ("renamed" ++ Nat.repr h.slot.toNat))
    | none => (false, s)
  | replaceRoot => renew s

/-- Apply operations in order, with the answer of each. -/
def applyAll (ops : List SceneOp) (s : Scene) : List Bool × Scene :=
  ops.foldl
    (fun acc op =>
      let (changed, s) := op.apply acc.2
      (acc.1 ++ [changed], s))
    ([], s)

end SceneOp

namespace Scene

/-- The places of `breadth` children under each of some nodes. -/
def placesUnder (breadth : Nat) (parents : List Handle) : List (Handle × Nat) :=
  parents.flatMap fun p => (List.range breadth).map fun b => (p, b)

/-- The nodes of a level are named by level and place, and the levels take turns
    with two tags. -/
def levelLabel (level place : Nat) : String := "d" ++ Nat.repr level ++ "b" ++ Nat.repr place

def levelTag (level : Nat) : Tag := if level % 2 = 0 then Tag.item else Tag.geometry

/-- Create the node of a level at a place, and append it to the new nodes. -/
def addPlace (level : Nat) (acc : List Handle × Scene) (place : Handle × Nat) :
    List Handle × Scene :=
  match acc.2.create place.1 (levelLabel level place.2) (levelTag level) with
  | .ok (h, s) => (acc.1 ++ [h], s)
  | .error _ => acc

/-- Give each of some nodes `breadth` children. The result is the new nodes in
    order. -/
def addLevel (s : Scene) (breadth level : Nat) (parents : List Handle) : List Handle × Scene :=
  (placesUnder breadth parents).foldl (addPlace level) ([], s)

/-- Give a node `depth` levels of nodes below it, with `breadth` children each. -/
def addLevels (s : Scene) (breadth depth : Nat) (root : Handle) : Scene :=
  ((List.range depth).foldl (fun acc level => acc.2.addLevel breadth level acc.1) ([root], s)).2

/-- Give the root such levels. A root is created if there is none. -/
def populate (s : Scene) (breadth depth : Nat) : Scene :=
  let rooted := match s.root with
    | some root => Except.ok (root, s)
    | none => s.createRoot "root" Tag.root
  match rooted with
  | .error _ => s
  | .ok (root, s) => s.addLevels breadth depth root

end Scene

end TreeWatch
