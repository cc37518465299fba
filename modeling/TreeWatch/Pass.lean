import TreeWatch.Step

/-!
# Full passes

A pass compares the record with a snapshot and makes the edits that bring the
two into agreement. When the roots differ the model is replaced. Otherwise it
sweeps twice.

The first sweep goes through the record from the leaves up and removes the
children that are not live anywhere, in contiguous runs, from the highest row
down, so that no row used later has shifted.

The second sweep goes through the snapshot from the root down and merges the
recorded with the live children of each node. Equal handles are descended into.
Recorded handles that come before the wanted one have moved away and are
removed; their new parent takes them up. A wanted handle that is tracked
elsewhere is relocated. A run of handles that are not tracked is inserted as
one batch, together with all that lies below, after whatever is tracked below
them has been removed from its old place.

## Main definitions

* `runsWhere`: The maximal runs of a list in which a test holds.
* `Pass.removeDead`: The first sweep below a node.
* `Pass.mergeChildren`: The merge of two child lists.
* `Pass.diffNode`: The second sweep below a node.
* `Pass.settle`: The comparison after a merge, and the repair.
* `Pass.run`: A whole pass.
-/

namespace TreeWatch

/-- The maximal runs of rows in which a test holds, as first and last row, for
    a list whose first entry has row `row`. -/
def runsWhere {α : Type} (p : α → Bool) : Nat → List α → List (Nat × Nat)
  | _, [] => []
  | row, x :: xs =>
    if p x then
      match runsWhere p (row + 1) xs with
      | (first, last) :: rest =>
        if first = row + 1 then (row, last) :: rest else (row, row) :: (first, last) :: rest
      | [] => [(row, row)]
    else runsWhere p (row + 1) xs

namespace Pass

/-- The first sweep below `node`, at most `depth` levels deep: the subtrees of
    the live children first, then the dead children themselves. -/
def removeDead (live : Snapshot) : Nat → Handle → Step → Except Fault Step
  | 0, _, s => .ok s
  | depth + 1, node, s => do
    let kids := s.store.children node
    let s ← (kids.filter live.contains).foldlM (fun s c => removeDead live depth c s) s
    let dead := (runsWhere (fun c => !live.contains c) 0 kids).reverse
    dead.foldlM (fun s run => s.removeRows live.contains node run.1 run.2) s

/-- The handles at the start of `wanted` that can be inserted as one batch: not
    tracked, and in front of the recorded row that follows. -/
def freshRun (store : Store) (bound : Option Handle) (wanted : List Handle) : List Handle :=
  wanted.takeWhile fun h =>
    !store.contains h && match bound with
      | none => true
      | some b => h < b

/-- Settle which handles are inserted at `row`. Whatever is tracked below them
    is removed first; that may take away the row that bounds the batch, so the
    batch is chosen again until nothing had to be removed, at most `rounds`
    times. -/
def chooseBatch (live : Snapshot) (node : Handle) (row : Nat) (wanted : List Handle) :
    Nat → Step → Except Fault (List Handle × Step)
  | rounds, s => do
    let batch := freshRun s.store (s.store.children node)[row]? wanted
    let (evicted, s) ← s.evictTracked live.contains batch live
    match rounds with
    | 0 => return (batch, s)
    | rounds + 1 =>
      if evicted then chooseBatch live node row wanted rounds s else return (batch, s)

/-- Merge the recorded children of `node` from `row` on with its live children
    `wanted`, at most `bound` of them. Returns the row that follows the last
    merged one. -/
def mergeChildren (descend : Handle → Step → Except Fault Step) (live : Snapshot)
    (node : Handle) : Nat → List Handle → Nat → Step → Except Fault (Nat × Step)
  | 0, _, row, s => .ok (row, s)
  | _ + 1, [], row, s => .ok (row, s)
  | bound + 1, h :: rest, row, s => do
    let passed := ((s.store.children node).drop row).takeWhile (· < h)
    let s ← if passed.isEmpty then .ok s
      else s.removeRows live.contains node row (row + passed.length - 1)
    if (s.store.children node)[row]? = some h then
      let s ← descend h s
      mergeChildren descend live node bound rest (row + 1) s
    else if s.store.contains h then
      let (moved, s) ← s.relocate h node
      if moved then
        let s ← descend h s
        mergeChildren descend live node bound rest (row + 1) s
      else mergeChildren descend live node bound rest row s
    else
      let (batch, s) ← chooseBatch live node row (h :: rest) s.store.size s
      let s ← s.insertRows node row batch live
      mergeChildren descend live node bound ((h :: rest).drop batch.length)
        (row + batch.length) s

/-- Compare the recorded children of `node` with the live ones. If they differ,
    a strict pass ends in a fault. Otherwise the children are removed, along
    with whatever is tracked of the live subtree, and inserted as they are
    live. -/
def settle (isStrict : Bool) (live : Snapshot) (node : Handle) (s : Step) :
    Except Fault Step := do
  let wanted := live.children node
  let recorded := s.store.children node
  if recorded = wanted then return s
  else if isStrict then throw (.diverged node wanted recorded)
  else
    let s ← if recorded.isEmpty then .ok s
      else s.removeRows live.contains node 0 (recorded.length - 1)
    let s ← wanted.foldlM
      (fun s c => do
        if s.store.contains c then return (← s.removeNode live.contains c).2 else return s)
      s
    let (_, s) ← s.evictTracked live.contains wanted live
    let s ← if s.store.contains node then s.insertRows node 0 wanted live else .ok s
    return s.recover (.inconsistentSnapshot node wanted.length recorded.length)

/-- The second sweep below `node`, at most `depth` levels deep: merge the
    children, remove the rows that are left over, compare. -/
def diffNode (isStrict : Bool) (live : Snapshot) : Nat → Handle → Step → Except Fault Step
  | 0, _, s => .ok s
  | depth + 1, node, s => do
    let wanted := live.children node
    let (row, s) ← mergeChildren (diffNode isStrict live depth) live node wanted.length wanted 0 s
    let count := (s.store.children node).length
    let s ← if row < count then s.removeRows live.contains node row (count - 1) else .ok s
    settle isStrict live node s

/-- Bring the record in line with a snapshot. A path in the record is no longer
    than the record is large, and a path in the snapshot no longer than the
    snapshot. -/
def run (isStrict : Bool) (live : Snapshot) (s : Step) : Except Fault Step :=
  let previous := s.store.root
  if previous ≠ live.root then
    let s := s.reset live.contains live.root live
    .ok (if previous.isSome then s.recover (.rootReplaced previous live.root) else s)
  else match previous with
    | none => .ok s
    | some root => do
      let s ← removeDead live s.store.size root s
      diffNode isStrict live live.size root s

end Pass

end TreeWatch
