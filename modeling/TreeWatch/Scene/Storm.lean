import TreeWatch.Scene.Op

/-!
# Storms

A storm is a seeded sequence of frames, each a list of scene operations. The
same seed always gives the same storm.

## Main definitions

* `StormSettings`: The size and the seed of a storm.
* `Draws`: The pseudo-random numbers behind a storm.
* `Storm.frames`: The frames of a storm.
* `Storm.applyOp`, `Storm.applyFrame`: An operation and a frame applied to a scene.
-/

namespace TreeWatch

/-- The size and the seed of a storm. `replaceRootChance` is the chance that a
    frame starts with a new root; no node is created in a scene of `maxNodes`
    nodes. -/
structure StormSettings where
  seed : UInt64 := 0
  frames : Nat := 200
  opsPerFrame : Nat := 8
  replaceRootChance : Float := 0.01
  maxNodes : Nat := 400

/-- The state of a linear congruential generator over machine words. -/
structure Draws where
  state : UInt64
deriving DecidableEq

namespace Draws

/-- The generator for a seed. -/
def ofSeed (seed : UInt64) : Draws := ⟨seed + 1⟩

/-- The next number. -/
def next (d : Draws) : UInt64 × Draws :=
  let state := d.state * 6364136223846793005 + 1442695040888963407
  (state, ⟨state⟩)

/-- The next position, from the upper 48 bits of the next number. -/
def nextPosition (d : Draws) : Nat × Draws :=
  let (n, d) := d.next
  ((n >>> 16).toNat, d)

/-- Whether an event of chance `p` happens: the next number, as a part of the
    largest one, is smaller than `p`. -/
def happens (d : Draws) (p : Float) : Bool × Draws :=
  let (n, d) := d.next
  (n.toFloat / (18446744073709551615 : UInt64).toFloat < p, d)

end Draws

namespace Storm

/-- The operation that three draws stand for: two positions and a number whose
    last digit chooses what happens. -/
def opOf (target other : Nat) (choice : UInt64) : SceneOp :=
  match (choice % 10).toNat with
  | 0 | 1 | 2 => .create target (other % 8).toUInt32
  | 3 | 4 => .destroy target
  | 5 | 6 => .reparent target other
  | 7 => .raise target
  | 8 => .setFlags target (StateFlags.ofNat other)
  | _ => .rename target

/-- The next operation. -/
def nextOp (d : Draws) : SceneOp × Draws :=
  let (target, d) := d.nextPosition
  let (other, d) := d.nextPosition
  let (choice, d) := d.next
  (opOf target other choice, d)

/-- The next `n` operations. -/
def nextOps : Nat → Draws → List SceneOp × Draws
  | 0, d => ([], d)
  | n + 1, d =>
    let (op, d) := nextOp d
    let (ops, d) := nextOps n d
    (op :: ops, d)

/-- The next frame: perhaps a new root, then the operations. -/
def nextFrame (c : StormSettings) (d : Draws) : List SceneOp × Draws :=
  let (replaces, d) := d.happens c.replaceRootChance
  let (ops, d) := nextOps c.opsPerFrame d
  (if replaces then .replaceRoot :: ops else ops, d)

/-- The next `n` frames. -/
def nextFrames (c : StormSettings) : Nat → Draws → List (List SceneOp)
  | 0, _ => []
  | n + 1, d =>
    let (frame, d) := nextFrame c d
    frame :: nextFrames c n d

/-- The frames of a storm. -/
def frames (c : StormSettings) : List (List SceneOp) :=
  nextFrames c c.frames (Draws.ofSeed c.seed)

/-- Apply an operation to a scene, unless it creates a node while the scene is
    full. The number counts the operations that changed the scene. -/
def applyOp (maxNodes : Nat) (acc : Nat × Scene) (op : SceneOp) : Nat × Scene :=
  if op.isCreate && maxNodes ≤ acc.2.live then acc
  else
    let (changed, s) := op.apply acc.2
    (if changed then acc.1 + 1 else acc.1, s)

/-- Apply a frame to a scene. The result is how many operations changed it. -/
def applyFrame (maxNodes : Nat) (frame : List SceneOp) (s : Scene) : Nat × Scene :=
  frame.foldl (applyOp maxNodes) (0, s)

end Storm

end TreeWatch
