import TreeWatch.Text.Blank

/-!
# Written numbers

Reading a number below `2 ^ 64` as a setting gives it, and writing one in
hexadecimal with a fixed width.

## Main definitions

* `Text.wordBound`: The first number that a machine word does not hold.
* `Text.readDigits`: The value of a list of decimal digits.
* `Text.readWord`: The number a trimmed text stands for.
* `Text.paddedHex`: A number with sixteen hexadecimal digits.
-/

namespace TreeWatch

namespace Text

/-- The numbers below this one fit a machine word. -/
def wordBound : Nat := UInt64.size

/-- The value of a non-empty list of decimal digits. -/
def readDigits (cs : List Char) : Option Nat :=
  if cs.isEmpty || !cs.all Char.isDigit then none
  else some (cs.foldl (fun n c => n * 10 + (c.toNat - '0'.toNat)) 0)

/-- The number a text stands for once the blanks around it are gone: an
    optional plus sign and decimal digits, for a value that fits a machine
    word. -/
def readWord (s : String) : Option Nat :=
  let digits := match trimChars s.toList with
    | '+' :: rest => rest
    | cs => cs
  (readDigits digits).filter (· < wordBound)

/-- A number in hexadecimal, filled up to sixteen digits with zeros. -/
def paddedHex (n : Nat) : String :=
  let digits := Nat.toDigits 16 n
  String.ofList (List.replicate (16 - digits.length) '0' ++ digits)

end Text

end TreeWatch
