import TreeWatch.Forest
import TreeWatch.Text.Number

/-!
# Snapshots

A snapshot is a capture of the observed tree, taken once at the start of a
step, so that the step sees one shape although the tree may go on changing.
Children are kept in handle order, which is the order of the record and not
the order in which the tree itself lists them.

The child function of a capture need not describe a tree. A handle that is
reported again, under another parent or as its own ancestor, is left out: the
first occurrence wins. What comes out is always a tree.

## Main definitions

* `Snapshot`: The captured child lists and parent links.
* `Snapshot.capture`: The capture of the tree below a root.
* `Snapshot.questions`: The nodes that a capture asks for their children.
* `Snapshot.ofEdges`: The capture of a tree given by its edges.
* `Snapshot.descendants`: The nodes below a node, in pre-order.

## Theorems

* `Snapshot.contains_empty`: The empty snapshot holds no node.
-/

namespace TreeWatch

/-- The shape of a captured tree. Every captured node has an entry among the
    child lists, and every one but the root a parent. -/
structure Snapshot where
  root : Option Handle
  childLists : HandleMap (List Handle)
  parents : HandleMap Handle
deriving DecidableEq

namespace Snapshot

/-- The snapshot of an absent tree. -/
def empty : Snapshot := ⟨none, ∅, ∅⟩

/-- Whether a node was live when the snapshot was taken. -/
def contains (s : Snapshot) (h : Handle) : Bool := s.childLists.contains h

/-- The live children of a node in handle order, none for a node that was not
    captured. -/
def children (s : Snapshot) (h : Handle) : List Handle := Forest.kids s.childLists h

/-- The live parent of a node. The root has none. -/
def parent (s : Snapshot) (h : Handle) : Option Handle := s.parents[h]?

/-- The number of captured nodes. -/
def size (s : Snapshot) : Nat := s.childLists.size

/-- Whether nothing was captured. -/
def isEmpty (s : Snapshot) : Bool := s.childLists.isEmpty

/-- The captured nodes with their child lists, in handle order. -/
def entries (s : Snapshot) : List (Handle × List Handle) := s.childLists.toList

/-- The nodes below `h` in pre-order, without `h` itself. -/
def descendants (s : Snapshot) (h : Handle) : List Handle :=
  Forest.preorder s.children s.size (s.children h)

/-- The snapshot of a single node, to which a capture adds the rest. -/
def single (root : Handle) : Snapshot := ⟨some root, (∅ : HandleMap _).insert root [], ∅⟩

/-- Record `kids` as the children of `node`, each of them so far without
    children. -/
def adopt (s : Snapshot) (node : Handle) (kids : List Handle) : Snapshot where
  root := s.root
  childLists := (kids.foldl (fun m c => m.insert c []) s.childLists).insert node kids
  parents := kids.foldl (fun m c => m.insert c node) s.parents

/-- What is new among the reported children of a node: each handle once, in
    handle order, without those captured before. -/
def freshChildren (s : Snapshot) (reported : List Handle) : List Handle :=
  (Handle.ascending reported).filter fun c => !s.contains c

/-- Expand the nodes of the stack, the top first, and put the new children of
    a node on top of it. Beside what is captured then, the result lists the
    questions that were asked: each node that was asked for its children, as
    often as it was. -/
def grow (childrenOf : Handle → List Handle) :
    Nat → List Handle → Snapshot → List Handle × Snapshot
  | 0, _, s => ([], s)
  | _ + 1, [], s => ([], s)
  | bound + 1, node :: rest, s =>
    let kids := s.freshChildren (childrenOf node)
    let (asked, t) := grow childrenOf bound (kids.reverse ++ rest) (s.adopt node kids)
    (node :: asked, t)

/-- Expand all below `root`. A node is put on the stack when it is captured and
    is expanded once, so the number of handles there are bounds the walk. -/
def expansion (childrenOf : Handle → List Handle) (root : Handle) : List Handle × Snapshot :=
  grow childrenOf Text.wordBound [root] (single root)

/-- Capture the tree below `root`. -/
def capture (childrenOf : Handle → List Handle) (root : Handle) : Snapshot :=
  (expansion childrenOf root).2

/-- The nodes that the capture of the tree below `root` asks for their children,
    in order. -/
def questions (childrenOf : Handle → List Handle) (root : Handle) : List Handle :=
  (expansion childrenOf root).1

/-- The child lists that a list of edges from parent to child describes. -/
def edgeTable (edges : List (Handle × Handle)) : HandleMap (List Handle) :=
  edges.foldr (fun e table => table.insert e.1 (e.2 :: Forest.kids table e.1)) ∅

/-- Capture the tree below `root` whose edges are given from parent to
    child. -/
def ofEdges (root : Handle) (edges : List (Handle × Handle)) : Snapshot :=
  capture (Forest.kids (edgeTable edges)) root

@[simp] theorem contains_empty (h : Handle) : empty.contains h = false := by
  simp [empty, contains]

end Snapshot

end TreeWatch
