import TreeWatch.Source
import TreeWatch.Task
import TreeWatch.Text.Json

/-!
# Scenes

A small retained scene that plays the observed application. Nodes live in
slots; a slot is used again after its node was destroyed, under the next
generation, so a handle to a destroyed node never names its successor. Children
are kept in paint order. Every mutation adds to a feed of notifications.

## Main definitions

* `Scene`: The slots, the root and the feed.
* `Scene.Refusal`: Why a mutation was refused.
* `Scene.createRoot`, `Scene.create`, `Scene.destroy`, `Scene.reparent`,
  `Scene.raise`, `Scene.setLabel`, `Scene.setFlags`: The mutations.
* `Scene.handles`: The live nodes in pre-order.
* `Scene.source`: The scene as a source.
* `Scene.dump`: The tree as a JSON value.
-/

namespace TreeWatch

/-- A live node of a scene, with its children in paint order. -/
structure SceneNode where
  label : String
  tag : Tag
  flags : StateFlags := StateFlags.none
  parent : Option Handle
  children : List Handle := []
deriving DecidableEq

/-- A place for a node. The generation tells apart the nodes that had it. -/
structure Slot where
  generation : UInt32
  node : Option SceneNode
deriving DecidableEq

/-- A scene. The slots that can be used again are taken from the front of
    `free`. The feed holds the tasks that the mutations ask for. -/
structure Scene where
  slots : Array Slot := #[]
  free : List UInt32 := []
  root : Option Handle := none
  live : Nat := 0
  feed : List Task := []
deriving DecidableEq

namespace Scene

/-- Why a mutation was refused. -/
inductive Refusal where
  /-- The handle names no live node. -/
  | unknownNode (node : Handle)
  /-- There is a root already. -/
  | rootExists
  /-- The root cannot be moved. -/
  | rootMove (node : Handle)
  /-- The node would come to lie below itself. -/
  | wouldCycle (node parent : Handle)
deriving DecidableEq

/-- The text of a refusal. -/
def Refusal.message : Refusal → String
  | unknownNode h => "unknown node " ++ h.text
  | rootExists => "scene already has a root"
  | rootMove h => "cannot reparent root " ++ h.text
  | wouldCycle h p => "reparenting " ++ h.text ++ " under " ++ p.text ++ " would create a cycle"

/-- The live node that a handle names. -/
def node? (s : Scene) (h : Handle) : Option SceneNode :=
  match s.slots[h.slot.toNat]? with
  | some slot => if slot.generation = h.generation then slot.node else none
  | none => none

/-- Whether a handle names a live node. -/
def contains (s : Scene) (h : Handle) : Bool := (s.node? h).isSome

/-- The children in paint order, none for an unknown handle. -/
def children (s : Scene) (h : Handle) : List Handle :=
  match s.node? h with
  | some n => n.children
  | none => []

/-- The parent of a live node. -/
def parent (s : Scene) (h : Handle) : Option Handle := (s.node? h).bind SceneNode.parent

/-- The label of a live node. -/
def label (s : Scene) (h : Handle) : Option String := (s.node? h).map SceneNode.label

/-- The state flags of a live node. -/
def flags (s : Scene) (h : Handle) : Option StateFlags := (s.node? h).map SceneNode.flags

/-- What there is to say about a live node. -/
def describe (s : Scene) (h : Handle) : Option NodeInfo :=
  (s.node? h).map fun n => ⟨n.label, n.tag, n.flags⟩

/-- The live nodes in pre-order, siblings in paint order. -/
def handles (s : Scene) : List Handle :=
  Forest.preorder s.children s.slots.size s.root.toList

/-- The scene as a source. -/
def source (s : Scene) : Source where
  root := s.root
  children := s.children
  parent := s.parent
  isLive := s.contains
  describe := s.describe

/-- Change the node in the slot of `h`, if `h` names it. -/
def modify (s : Scene) (h : Handle) (f : SceneNode → SceneNode) : Scene :=
  match s.node? h with
  | none => s
  | some n => { s with slots := s.slots.setIfInBounds h.slot.toNat ⟨h.generation, some (f n)⟩ }

/-- Add a task to the feed. -/
def notify (s : Scene) (t : Task) : Scene := { s with feed := s.feed ++ [t] }

/-- Take all that the feed holds. -/
def takeFeed (s : Scene) : List Task × Scene := (s.feed, { s with feed := [] })

/-- Put a node into a slot: the one that was freed last, under its next
    generation, or else a new one under the first. -/
def allocate (s : Scene) (n : SceneNode) : Handle × Scene :=
  match s.free with
  | i :: free =>
    let generation := match s.slots[i.toNat]? with
      | some slot => slot.generation + 1
      | none => 1
    (Handle.ofParts i generation,
      { s with
        slots := s.slots.setIfInBounds i.toNat ⟨generation, some n⟩
        free := free
        live := s.live + 1 })
  | [] =>
    (Handle.ofParts s.slots.size.toUInt32 1,
      { s with slots := s.slots.push ⟨1, some n⟩, live := s.live + 1 })

/-- Empty the slot of a live node, so that it can be used again. -/
def release (s : Scene) (h : Handle) : Scene :=
  if s.contains h then
    { s with
      slots := s.slots.setIfInBounds h.slot.toNat ⟨h.generation, none⟩
      free := h.slot :: s.free
      live := s.live - 1 }
  else s

/-- Create the root. -/
def createRoot (s : Scene) (label : String) (tag : Tag) : Except Refusal (Handle × Scene) :=
  if s.root.isSome then .error .rootExists
  else
    let (h, s) := s.allocate { label := label, tag := tag, parent := none }
    .ok (h, { s with root := some h }.notify (.entered h))

/-- Create a node as the last child of `parent`. -/
def create (s : Scene) (parent : Handle) (label : String) (tag : Tag) :
    Except Refusal (Handle × Scene) :=
  if !s.contains parent then .error (.unknownNode parent)
  else
    let (h, s) := s.allocate { label := label, tag := tag, parent := some parent }
    let s := s.modify parent fun n => { n with children := n.children ++ [h] }
    .ok (h, s.notify (.entered h))

/-- Take a node out of its parent's children. -/
def unlist (s : Scene) (parent h : Handle) : Scene :=
  s.modify parent fun n => { n with children := n.children.filter (· ≠ h) }

/-- Destroy a node and all below it. The result is how many nodes died.
    Subtrees die from the last child to the first, each parent before its
    children, and their slots are used again from the last one freed. -/
def destroy (s : Scene) (h : Handle) : Except Refusal (Nat × Scene) :=
  match s.node? h with
  | none => .error (.unknownNode h)
  | some n =>
    let s := match n.parent with
      | some p => s.unlist p h
      | none => { s with root := none }
    let s := s.notify (.left h)
    let dying := Forest.preorder (fun x => (s.children x).reverse) s.slots.size [h]
    .ok (dying.length, dying.foldl release s)

/-- Whether `h` is `node` or lies below it, looking at no more than `bound`
    ancestors. -/
def liesBelow (s : Scene) (node : Handle) : Nat → Handle → Bool
  | bound, h =>
    if h = node then true
    else match s.parent h, bound with
      | some p, bound + 1 => liesBelow s node bound p
      | _, _ => false

/-- Move a node to the end of another parent's children. -/
def reparent (s : Scene) (h newParent : Handle) : Except Refusal Scene :=
  match s.node? h with
  | none => .error (.unknownNode h)
  | some n =>
    match n.parent with
    | none => .error (.rootMove h)
    | some oldParent =>
      if !s.contains newParent then .error (.unknownNode newParent)
      else if s.liesBelow h s.slots.size newParent then .error (.wouldCycle h newParent)
      else
        let s := s.unlist oldParent h
        let s := s.modify newParent fun n => { n with children := n.children ++ [h] }
        let s := s.modify h fun n => { n with parent := some newParent }
        .ok (s.notify (.reparented h))

/-- Move a node to the top of the paint order of its siblings. Only the paint
    order changes, and nobody is notified. -/
def raise (s : Scene) (h : Handle) : Except Refusal Scene :=
  match s.node? h with
  | none => .error (.unknownNode h)
  | some n =>
    match n.parent with
    | none => .ok s
    | some p =>
      .ok (s.modify p fun n => { n with children := n.children.filter (· ≠ h) ++ [h] })

/-- Rename a node. -/
def setLabel (s : Scene) (h : Handle) (label : String) : Except Refusal Scene :=
  if s.contains h then
    .ok ((s.modify h fun n => { n with label := label }).notify (.attributes h Attributes.label))
  else .error (.unknownNode h)

/-- Replace the state flags of a node. The result is the kinds that changed; if
    there are none, nobody is notified. -/
def setFlags (s : Scene) (h : Handle) (flags : StateFlags) : Except Refusal (Attributes × Scene) :=
  match s.node? h with
  | none => .error (.unknownNode h)
  | some n =>
    let kinds := Attributes.ofTransition n.flags flags
    let s := s.modify h fun n => { n with flags := flags }
    .ok (kinds, if kinds.isEmpty then s else s.notify (.attributes h kinds))

/-- The tree below a node as a JSON value, at most `depth` levels deep. -/
def dumpNode (s : Scene) : Nat → Handle → Json
  | 0, _ => .null
  | depth + 1, h =>
    match s.node? h with
    | none => .null
    | some n => .object [
        ("children", .array (n.children.map fun c => dumpNode s depth c)),
        ("flags", .number n.flags.toNat),
        ("handle", .string h.text),
        ("label", .string n.label),
        ("type", .number n.tag.toNat)]

/-- The whole tree as a JSON value, children in paint order. -/
def dump (s : Scene) : Json :=
  match s.root with
  | some root => s.dumpNode s.slots.size root
  | none => .null

/-- Forward the feed to a queue. -/
def forward (s : Scene) (c : Channel) : Scene × Channel :=
  let (tasks, s) := s.takeFeed
  (s, c.postAll tasks)

end Scene

end TreeWatch
