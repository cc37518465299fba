/-!
# Blank characters

The characters with the Unicode property White_Space, and the text without
the blanks around it. A setting may be written with blanks on either side.

## Main definitions

* `Text.isBlank`: The characters of the property White_Space.
* `Text.trim`: A text without leading and trailing blanks.
-/

namespace TreeWatch

namespace Text

/-- The ranges of code points with the property White_Space, in order. -/
def blankRanges : List (Nat × Nat) :=
  [(0x09, 0x0d), (0x20, 0x20), (0x85, 0x85), (0xa0, 0xa0), (0x1680, 0x1680),
    (0x2000, 0x200a), (0x2028, 0x2029), (0x202f, 0x202f), (0x205f, 0x205f), (0x3000, 0x3000)]

/-- Whether a character has the property White_Space. -/
def isBlank (c : Char) : Bool := blankRanges.any fun r => r.1 ≤ c.toNat && c.toNat ≤ r.2

/-- The characters of a text without the blanks around them. -/
def trimChars (cs : List Char) : List Char :=
  ((cs.dropWhile isBlank).reverse.dropWhile isBlank).reverse

/-- A text without leading and trailing blanks. -/
def trim (s : String) : String := String.ofList (trimChars s.toList)

end Text

end TreeWatch
