/-!
# JSON values

The values that the summary of a rehearsal and the dump of a scene are made
of, and their compact written form. Only whole numbers that are not negative
occur.

## Main definitions

* `Json`: A JSON value.
* `Json.quoted`: A text as a JSON string.
* `Json.render`: A value on one line, without spaces.
-/

namespace TreeWatch

/-- A JSON value. The fields of an object are kept in the order they are
    written in. -/
inductive Json where
  | null
  | bool (b : Bool)
  | number (n : Nat)
  | string (s : String)
  | array (items : List Json)
  | object (fields : List (String × Json))

namespace Json

/-- A character inside a JSON string. The quote, the backslash and the control
    characters are escaped, the five usual ones by a letter and the others by
    their number. -/
def escape (c : Char) : String :=
  if c = '"' then "\\\""
  else if c = '\\' then "\\\\"
  else if c = '\n' then "\\n"
  else if c = '\r' then "\\r"
  else if c = '\t' then "\\t"
  else if c = '\x08' then "\\b"
  else if c = '\x0c' then "\\f"
  else if c.toNat < 32 then
    "\\u00" ++ String.ofList (Nat.toDigits 16 (c.toNat / 16) ++ Nat.toDigits 16 (c.toNat % 16))
  else c.toString

/-- A text as a JSON string. -/
def quoted (s : String) : String := "\"" ++ String.join (s.toList.map escape) ++ "\""

/-- The optional text, or null. -/
def ofOption : Option String → Json
  | none => null
  | some s => string s

mutual

/-- A value on one line, without spaces. -/
def render : Json → String
  | null => "null"
  | bool b => if b then "true" else "false"
  | number n => Nat.repr n
  | string s => quoted s
  | array items => "[" ++ String.intercalate "," (renderItems items) ++ "]"
  | object fields => "\x7b" ++ String.intercalate "," (renderFields fields) ++ "\x7d"

/-- The written forms of the items of an array. -/
def renderItems : List Json → List String
  | [] => []
  | v :: rest => render v :: renderItems rest

/-- The written forms of the fields of an object. -/
def renderFields : List (String × Json) → List String
  | [] => []
  | (k, v) :: rest => (quoted k ++ ":" ++ render v) :: renderFields rest

end

end Json

end TreeWatch
