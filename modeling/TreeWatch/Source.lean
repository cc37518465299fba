import TreeWatch.Flags
import TreeWatch.Kind
import TreeWatch.Snapshot

/-!
# Sources

A source answers questions about the observed tree at one moment. The five
answers are independent of each other: nothing forces the parent link of a node
to agree with a child list, or a listed child to be live. A source that is
backed by a real tree does agree with itself, but the record must survive one
that does not.

The captures of the whole tree and of the tree below a node are not answers of
their own. They are what the interface of a source offers by default, made from
the root, the child lists and the test whether a node is live; a source that
would override them is not meant here.

## Main definitions

* `NodeInfo`: What a source tells about a live node.
* `Source`: The answers of a source.
* `Source.snapshot`: The capture of the whole tree.
* `Source.subtree`: The capture of the tree below one node.
-/

namespace TreeWatch

/-- What a source tells about a live node. The label may be empty. -/
structure NodeInfo where
  label : String
  tag : Tag
  flags : StateFlags
deriving DecidableEq

/-- The observed tree at one moment, as far as it can be asked. Children are
    listed in the order of the tree itself. -/
structure Source where
  root : Option Handle
  children : Handle → List Handle
  parent : Handle → Option Handle
  isLive : Handle → Bool
  describe : Handle → Option NodeInfo

namespace Source

/-- The capture of all that the root leads to. -/
def snapshot (s : Source) : Snapshot :=
  match s.root with
  | some root => Snapshot.capture s.children root
  | none => Snapshot.empty

/-- The capture of a live node and all it leads to; empty for a dead one. -/
def subtree (s : Source) (node : Handle) : Snapshot :=
  if s.isLive node then Snapshot.capture s.children node else Snapshot.empty

end Source

end TreeWatch
