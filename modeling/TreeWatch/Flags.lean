/-!
# State flags and attribute kinds

Two bit sets. Six of the eight state flags of a node have a name, and seven of
the sixteen kinds of attributes. A bit without a name can be held, compared and
united like any other. Only a set that is read from a number is cut down to the
bits with a name.

## Main definitions

* `StateFlags`: The state flags of a node.
* `StateFlags.named`: The flags that have a name.
* `StateFlags.isDimmed`: Whether a consumer greys the node out.
* `Attributes`: A set of attribute kinds.
* `Attributes.ofTransition`: The kinds touched by a change of flags.
-/

namespace TreeWatch

/-- The state flags a node reports: invisible, zero size, out of view, focus,
    active focus, and just received an event, from the lowest bit up. The two
    highest bits have no name. -/
structure StateFlags where
  bits : BitVec 8
deriving DecidableEq

namespace StateFlags

/-- The flags without the bits that have no name. -/
def named (f : StateFlags) : StateFlags := ⟨f.bits &&& 0x3f⟩

/-- The flags named by a number; bits above the sixth mean nothing. -/
def ofNat (n : Nat) : StateFlags := named ⟨BitVec.ofNat 8 n⟩

/-- No flag is set. -/
def none : StateFlags := ⟨0⟩

/-- The flags as a number. -/
def toNat (f : StateFlags) : Nat := f.bits.toNat

/-- A node is dimmed when it is invisible or has no size. -/
def isDimmed (f : StateFlags) : Bool := f.bits.getLsbD 0 || f.bits.getLsbD 1

end StateFlags

/-- A set of attribute kinds: visibility, size, position, focus, opacity,
    event, label, from the lowest bit up. The nine highest bits have no name. -/
structure Attributes where
  bits : BitVec 16
deriving DecidableEq

namespace Attributes

/-- The kinds named by a number; bits above the seventh mean nothing. -/
def ofNat (n : Nat) : Attributes := ⟨BitVec.ofNat 16 n &&& 0x7f⟩

/-- The kinds as a number. -/
def toNat (a : Attributes) : Nat := a.bits.toNat

/-- No kind at all. -/
def none : Attributes := ⟨0⟩

/-- Whether no kind is in the set. -/
def isEmpty (a : Attributes) : Bool := a.bits == 0

/-- The kinds in either set. -/
def union (a b : Attributes) : Attributes := ⟨a.bits ||| b.bits⟩

/-- The one kind at bit `i`. -/
def single (i : Nat) : Attributes := ⟨BitVec.twoPow 16 i⟩

def visibility : Attributes := single 0
def size : Attributes := single 1
def position : Attributes := single 2
def focus : Attributes := single 3
def event : Attributes := single 5
def label : Attributes := single 6

/-- The kinds touched when the flags of a node go from `before` to `after`.
    Both focus flags belong to the one kind `focus`. -/
def ofTransition (before after : StateFlags) : Attributes :=
  let changed (i : Nat) : Bool := (before.bits ^^^ after.bits).getLsbD i
  let touched : List (Bool × Attributes) :=
    [(changed 0, visibility), (changed 1, size), (changed 2, position),
      (changed 3 || changed 4, focus), (changed 5, event)]
  touched.foldl (fun acc t => if t.1 then acc.union t.2 else acc) none

end Attributes

end TreeWatch
