import Std.Data.ExtTreeMap

/-!
# Node kinds

A source reports a bare number, the type tag, for each node. A table resolves
the tag to a kind and a display name; the node itself is never looked into.
Tags outside the table keep their number as an unknown kind.

## Main definitions

* `Kind`: The known kinds, and the unknown tags.
* `Kind.name`: The default display name of a kind.
* `KindTable`: The kinds and names registered for tags.
* `KindTable.standard`: The table with the eight built-in tags.
-/

namespace TreeWatch

/-- The type tag a source reports for a node. -/
abbrev Tag := UInt32

/-- The first tag kept for types that an application defines. -/
def userTag : Tag := 65536

/-- What a node is. -/
inductive Kind where
  | basic
  | geometry
  | transform
  | clip
  | opacity
  | root
  | render
  | item
  | unknown (tag : Tag)
deriving DecidableEq

namespace Kind

/-- The default display name. An unknown tag is named by its distance from the
    first application tag, or by its number when it lies below that. -/
def name : Kind → String
  | basic => "Node"
  | geometry => "Geometry Node"
  | transform => "Transform Node"
  | clip => "Clip Node"
  | opacity => "Opacity Node"
  | root => "Root Node"
  | render => "Render Node"
  | item => "Item"
  | unknown tag =>
    if tag = userTag then "UserType"
    else if userTag < tag then "UserType + " ++ Nat.repr (tag - userTag).toNat
    else Nat.repr tag.toNat

end Kind

/-- The tag of the built-in root kind. -/
def Tag.root : Tag := 5

/-- The tag of the built-in geometry kind. -/
def Tag.geometry : Tag := 1

/-- The tag of the built-in item kind. -/
def Tag.item : Tag := 7

/-- The kind and display name registered for each tag. -/
structure KindTable where
  entries : Std.ExtTreeMap Tag (Kind × String) := ∅

namespace KindTable

/-- The table with no entries: every tag is unknown. -/
def empty : KindTable := {}

/-- Register a kind and a display name for a tag, in place of what was there. -/
def register (t : KindTable) (tag : Tag) (kind : Kind) (name : String) : KindTable :=
  ⟨t.entries.insert tag (kind, name)⟩

/-- The kinds with built-in tags, in the order of their tags. -/
def builtIn : List (Tag × Kind) :=
  [(0, .basic), (1, .geometry), (2, .transform), (3, .clip), (4, .opacity), (5, .root),
    (6, .render), (7, .item)]

/-- The built-in kinds under their default names. -/
def standard : KindTable :=
  builtIn.foldl (fun t e => t.register e.1 e.2 e.2.name) empty

/-- The kind of a tag. -/
def resolve (t : KindTable) (tag : Tag) : Kind :=
  match t.entries[tag]? with
  | some (kind, _) => kind
  | none => .unknown tag

/-- The display name of a tag. -/
def typeName (t : KindTable) (tag : Tag) : String :=
  match t.entries[tag]? with
  | some (_, name) => name
  | none => (Kind.unknown tag).name

end KindTable

end TreeWatch
