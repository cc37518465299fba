import TreeWatch.Text.Hidden

/-!
# Quoted texts

A text between quotes in which every character can be seen, as it enters the
checksum of a journal entry.

## Main definitions

* `Text.shown`: A character inside the quotes.
* `Text.quoted`: A text between quotes.
-/

namespace TreeWatch

namespace Text

/-- A character inside quotes. Quote and backslash have a backslash in front,
    the four usual control characters are letters after a backslash, and any
    other hidden character is shown by its number. -/
def shown (c : Char) : String :=
  if c = '\x00' then "\\0"
  else if c = '\t' then "\\t"
  else if c = '\r' then "\\r"
  else if c = '\n' then "\\n"
  else if c = '\\' then "\\\\"
  else if c = '"' then "\\\""
  else if isHidden c then "\\u\x7b" ++ String.ofList (Nat.toDigits 16 c.toNat) ++ "\x7d"
  else c.toString

/-- A text between quotes, each character shown. -/
def quoted (s : String) : String := "\"" ++ String.join (s.toList.map shown) ++ "\""

end Text

end TreeWatch
