import TreeWatch.Source

/-!
# Tables of answers

A source made of separate tables for the root, the child lists, the parent
links, the live handles and the descriptions. The tables can be changed
together, as a tree would change them, or one at a time, which makes a source
that contradicts itself.

## Main definitions

* `Tables`: The tables.
* `Tables.source`: The source that answers from them.
* `Tables.link`, `Tables.unlink`, `Tables.kill`: Changes that keep the tables
  together.
-/

namespace TreeWatch

/-- A table for each question a source answers. -/
structure Tables where
  root : Option Handle := none
  childLists : HandleMap (List Handle) := ∅
  parents : HandleMap Handle := ∅
  live : HandleSet := ∅
  infos : HandleMap NodeInfo := ∅

namespace Tables

/-- The source that answers each question from its own table. A live node
    without a description has an empty one; a dead node has none. -/
def source (t : Tables) : Source where
  root := t.root
  children := Forest.kids t.childLists
  parent h := t.parents[h]?
  isLive h := t.live.contains h
  describe h :=
    if t.live.contains h then some (t.infos.getD h ⟨"", 0, StateFlags.none⟩) else none

/-- Drop the parent link of a node, and the node from that parent's list. -/
def cut (t : Tables) (h : Handle) : Tables :=
  match t.parents[h]? with
  | none => t
  | some p =>
    { t with
      parents := t.parents.erase h
      childLists := t.childLists.insert p ((Forest.kids t.childLists p).filter (· ≠ h)) }

/-- Make a handle live or not. -/
def setLive (t : Tables) (h : Handle) (isLive : Bool) : Tables :=
  { t with live := if isLive then t.live.insert h else t.live.erase h }

/-- Choose the root, which is live from then on. -/
def setRoot (t : Tables) (root : Option Handle) : Tables :=
  match root with
  | none => { t with root := none }
  | some h => { t.setLive h true with root := some h }

/-- Replace a child list and nothing else. -/
def setChildren (t : Tables) (h : Handle) (kids : List Handle) : Tables :=
  { t with childLists := t.childLists.insert h kids }

/-- Replace a parent link and nothing else. -/
def setParent (t : Tables) (h : Handle) (parent : Option Handle) : Tables :=
  { t with
    parents := match parent with
      | none => t.parents.erase h
      | some p => t.parents.insert h p }

/-- Describe a node. -/
def setInfo (t : Tables) (h : Handle) (info : NodeInfo) : Tables :=
  { t with infos := t.infos.insert h info }

/-- Move a node to the end of the child list of `parent` and make it live. -/
def link (t : Tables) (parent child : Handle) : Tables :=
  let t := t.cut child
  { t.setLive child true with
    childLists := t.childLists.insert parent (Forest.kids t.childLists parent ++ [child])
    parents := t.parents.insert child parent }

/-- Take a node out of the tree and make it dead. -/
def unlink (t : Tables) (h : Handle) : Tables := (t.cut h).setLive h false

/-- Take a node and all below it out of the tree and out of all tables but
    the descriptions. -/
def kill (t : Tables) (h : Handle) : Tables :=
  let t := t.cut h
  let (dead, left) := Forest.uproot [h] t.childLists
  { t with
    root := t.root.filter fun r => !dead.contains r
    childLists := left
    parents := dead.foldl (·.erase ·) t.parents
    live := dead.foldl (·.erase ·) t.live }

end Tables

end TreeWatch
