import Std.Data.ExtTreeMap
import Std.Data.ExtTreeSet

/-!
# Handles

A handle names a node of the observed tree without owning it. Handles are
only compared, ordered and printed. The order is the order of the raw values,
and it is the order in which every list of children is kept, so that two child
lists can be compared by one sweep over both.

A source that owns its storage hands out handles made of a slot and a
generation. The slot takes the high half of the raw value, so such handles are
ordered by slot first, and a slot that is used again gives a different handle.

## Main definitions

* `Handle`: The identity of a node.
* `Handle.ofParts`: The handle of a slot and a generation.
* `HandleMap`, `HandleSet`: Finite maps and sets over handles, equal when their
  contents are equal.
* `Handle.ascending`: The members of a list, in order and without repetition.
* `Handle.insertInto`: A handle put into an ordered list.

## Theorems

* `Handle.compare_eq_lt`: The comparison agrees with the order.
-/

namespace TreeWatch

/-- The identity of a node of the observed tree. -/
structure Handle where
  raw : UInt64
deriving DecidableEq

namespace Handle

instance : Ord Handle := ⟨compareOn raw⟩

instance : Std.TransOrd Handle := inferInstanceAs (Std.TransCmp (compareOn raw))

instance : Std.LawfulEqOrd Handle where
  eq_of_compare {a b} h := by
    have same : compare a.raw b.raw = .eq := h
    cases a
    cases b
    exact congrArg mk (Std.LawfulEqOrd.eq_of_compare same)

instance : LT Handle := ⟨fun a b => a.raw < b.raw⟩

instance : LE Handle := ⟨fun a b => a.raw ≤ b.raw⟩

instance (a b : Handle) : Decidable (a < b) := inferInstanceAs (Decidable (a.raw < b.raw))

instance (a b : Handle) : Decidable (a ≤ b) := inferInstanceAs (Decidable (a.raw ≤ b.raw))

/-- Comparing two handles gives `lt` exactly when the first is the smaller. -/
theorem compare_eq_lt (a b : Handle) : compare a b = .lt ↔ a < b :=
  show compare a.raw b.raw = .lt ↔ a.raw < b.raw from Std.compare_eq_lt

/-- The handle of a storage slot in its given generation. -/
def ofParts (slot generation : UInt32) : Handle :=
  ⟨slot.toUInt64 <<< 32 ||| generation.toUInt64⟩

/-- The storage slot, the high half of the raw value. -/
def slot (h : Handle) : UInt32 := (h.raw >>> 32).toUInt32

/-- The generation of the slot, the low half of the raw value. -/
def generation (h : Handle) : UInt32 := h.raw.toUInt32

/-- The handle as an address: `0x` and the raw value in hexadecimal, without
    leading zeros. -/
def text (h : Handle) : String :=
  "0x" ++ String.ofList (Nat.toDigits 16 h.raw.toNat)

instance : ToString Handle := ⟨text⟩

/-- The handle as it is shown inside diagnostic texts, with its raw value in
    decimal. -/
def debugText (h : Handle) : String := "Handle(" ++ Nat.repr h.raw.toNat ++ ")"

/-- An optional handle as it is shown inside diagnostic texts. -/
def debugOption : Option Handle → String
  | none => "None"
  | some h => "Some(" ++ h.debugText ++ ")"

/-- A list of handles as it is shown inside diagnostic texts. -/
def debugList (hs : List Handle) : String :=
  "[" ++ String.intercalate ", " (hs.map debugText) ++ "]"

end Handle

/-- Finite maps over handles. -/
abbrev HandleMap (β : Type) := Std.ExtTreeMap Handle β

instance {β : Type} [DecidableEq β] : DecidableEq (HandleMap β) :=
  inferInstanceAs (DecidableEq (Std.ExtTreeMap Handle β))

/-- Finite sets of handles. -/
abbrev HandleSet := Std.ExtTreeSet Handle

namespace Handle

/-- The members of a list in ascending order, each once. Lists with the same
    members give the same result. -/
def ascending (hs : List Handle) : List Handle := (Std.ExtTreeSet.ofList hs).toList

/-- Put `h` into an ascending list in front of the first entry that is not
    smaller. -/
def insertInto (h : Handle) : List Handle → List Handle
  | [] => [h]
  | x :: xs => if x < h then x :: insertInto h xs else h :: x :: xs

/-- The row at which `insertInto` puts `h`: the number of smaller entries in
    front. -/
def insertionRow (h : Handle) (hs : List Handle) : Nat := (hs.takeWhile (· < h)).length

end Handle

end TreeWatch
