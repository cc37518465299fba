import TreeWatch.Kind
import TreeWatch.Source
import TreeWatch.Store.Grid

/-!
# The model

What a consumer reads: the grid of the record, with the cells filled from the
source. The first column shows the label of a node, the second its type. A node
that is tracked but gone from the source is still shown, by its address and as
deleted.

## Main definitions

* `Model`: A record, the source behind it and the names of the types.
* `Role`, `Cell`: What can be asked about a cell, and the answers.
* `Model.data`: The answer for a cell and a role.
* `Model.header`: The titles of the columns.
-/

namespace TreeWatch

/-- What can be asked about a cell. -/
inductive Role where
  /-- The text to show. -/
  | display
  /-- What kind of node the row shows. -/
  | kind
  /-- Whether the row is the root. -/
  | isRoot
  /-- The handle behind the row. -/
  | handle
  /-- The state flags of the node. -/
  | itemFlags
deriving DecidableEq

/-- The answer about a cell. -/
inductive Cell where
  | text (s : String)
  | kind (k : Kind)
  | bool (b : Bool)
  | handle (h : Handle)
  | flags (f : StateFlags)
deriving DecidableEq

/-- A record shown as a grid, described through a source and a table of
    kinds. -/
structure Model where
  store : Store
  source : Source
  kinds : KindTable

namespace Model

/-- What is shown as the type of a node that the source does not know. -/
def deletedLabel : String := "<deleted>"

/-- The text of a cell of a node that the source does not know. -/
def missingText (i : Index) : String :=
  if i.column = 0 then i.node.text else deletedLabel

/-- The text of a cell of a live node. A node without a label shows its
    address. -/
def liveText (m : Model) (i : Index) (info : NodeInfo) : Option String :=
  match i.column with
  | 0 => some (if info.label.isEmpty then i.node.text else info.label)
  | 1 => some (m.kinds.typeName info.tag)
  | _ => none

/-- The answer for a cell and a role. -/
def data (m : Model) (i : Index) (role : Role) : Option Cell :=
  match role, m.source.describe i.node with
  | .handle, _ => some (.handle i.node)
  | .isRoot, _ => some (.bool (m.store.root = some i.node))
  | .display, none => some (.text (missingText i))
  | .display, some info => (m.liveText i info).map .text
  | .kind, info => info.map fun n => .kind (m.kinds.resolve n.tag)
  | .itemFlags, info => info.map fun n => .flags n.flags

/-- The title of a column. -/
def header : Nat → Option String
  | 0 => some "Node"
  | 1 => some "Type"
  | _ => none

/-- The model as it is shown inside diagnostic texts. -/
def debugText (m : Model) : String :=
  "ModelView \x7b root: " ++ Handle.debugOption m.store.root ++ ", len: " ++
    Nat.repr m.store.size ++ " \x7d"

end Model

end TreeWatch
