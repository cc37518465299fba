import Mathlib.Data.List.Basic
import TreeWatch.Text.Json

/-!
# Reading JSON

A reader of JSON texts that looks at one character at a time. It keeps the
arrays and objects that are open on a stack, so nothing it does depends on how
long the text is, and what it does with a text that is put together from parts
follows from what it does with the parts.

The reader accepts blanks between the parts of a text, and every escape of a
string but those for one half of a character. A character below U+0020 inside a
string has to be escaped. Numbers are whole, not negative and without leading
zeros, as all numbers of `Json` are. The end of such a number is seen only by
the character after it, so a number that was read and a number that may go on
are told apart (`Json.Ends`).

## Main definitions

* `Json.Reader`: What was read, and what is open.
* `Json.step`: One character.
* `Json.read?`: The value that a text stands for.

## Theorems

* `Json.run_escape`: An escaped character is read as that character.
* `Json.run_digits`: The digits of a number are read as that number.
* `Json.run_control`: A control character inside a string is refused.
* `Json.read?_render`: A value is read back from its written form.
-/

namespace TreeWatch

/-- The value of a hexadecimal digit. -/
def Text.hexValue (c : Char) : Option Nat :=
  if c.isDigit then some (c.toNat - '0'.toNat)
  else if 'a' ≤ c && c ≤ 'f' then some (c.toNat - 'a'.toNat + 10)
  else if 'A' ≤ c && c ≤ 'F' then some (c.toNat - 'A'.toNat + 10)
  else none

theorem Text.hexValue_digitChar (d : Nat) (hd : d < 16) : hexValue d.digitChar = some d := by
  have hall : ∀ d : Fin 16, hexValue d.val.digitChar = some d.val := by decide
  exact hall ⟨d, hd⟩

namespace Json

/-- An array or an object that is open, with what is complete in it. -/
inductive Frame where
  /-- An item is read. -/
  | item (before : List Json)
  /-- The name of a field is read. -/
  | name (before : List (String × Json))
  /-- The value of a field is read. -/
  | field (before : List (String × Json)) (name : String)

/-- What is expected next. -/
inductive Mode where
  /-- A value. -/
  | value
  /-- A name. -/
  | name
  /-- The colon after a name. -/
  | colon
  /-- The next character of a string. -/
  | text (acc : List Char)
  /-- What comes after a backslash. -/
  | escape (acc : List Char)
  /-- A digit of a character code, and `more` digits after it. -/
  | code (acc : List Char) (n more : Nat)
  /-- Another digit, or the end of a number. -/
  | digits (n : Nat)
  /-- The rest of the word for a value. -/
  | word (rest : List Char) (v : Json)
  /-- The end of whatever the value is in. -/
  | done (v : Json)

/-- A reader within a text. -/
structure Reader where
  mode : Mode
  stack : List Frame

def isBlank (c : Char) : Bool := c = ' ' || c = '\t' || c = '\n' || c = '\r'

/-- The character has to be escaped inside a string. -/
def isControl (c : Char) : Bool := c.toNat < 32

/-- The character that a letter after a backslash stands for. -/
def unescape (c : Char) : Option Char :=
  if c = '"' || c = '\\' || c = '/' then some c
  else if c = 'n' then some '\n'
  else if c = 'r' then some '\r'
  else if c = 't' then some '\t'
  else if c = 'b' then some '\x08'
  else if c = 'f' then some '\x0c'
  else none

/-- The character with a code, unless the code is one half of a character. -/
def charOf (n : Nat) : Option Char := if n.isValidChar then some (Char.ofNat n) else none

/-- The first character of a value, or the end of an empty array. -/
def begin (st : List Frame) (c : Char) : Option Reader :=
  if isBlank c then some ⟨.value, st⟩
  else if c = '"' then some ⟨.text [], st⟩
  else if c.isDigit then some ⟨.digits (c.toNat - '0'.toNat), st⟩
  else if c = '[' then some ⟨.value, .item [] :: st⟩
  else if c = '\x7b' then some ⟨.name, .name [] :: st⟩
  else if c = 'n' then some ⟨.word ['u', 'l', 'l'] .null, st⟩
  else if c = 't' then some ⟨.word ['r', 'u', 'e'] (.bool true), st⟩
  else if c = 'f' then some ⟨.word ['a', 'l', 's', 'e'] (.bool false), st⟩
  else match st with
    | .item [] :: st => if c = ']' then some ⟨.done (.array []), st⟩ else none
    | _ => none

/-- A character after a value. -/
def next (v : Json) (st : List Frame) (c : Char) : Option Reader :=
  if isBlank c then some ⟨.done v, st⟩
  else match st with
    | .item before :: st =>
      if c = ',' then some ⟨.value, .item (before ++ [v]) :: st⟩
      else if c = ']' then some ⟨.done (.array (before ++ [v])), st⟩
      else none
    | .field before name :: st =>
      if c = ',' then some ⟨.name, .name (before ++ [(name, v)]) :: st⟩
      else if c = '\x7d' then some ⟨.done (.object (before ++ [(name, v)])), st⟩
      else none
    | _ => none

/-- The end of a string, which is a name or a value. -/
def close (acc : List Char) : List Frame → Reader
  | .name before :: st => ⟨.colon, .field before (String.ofList acc) :: st⟩
  | st => ⟨.done (.string (String.ofList acc)), st⟩

/-- The reader after one more character, unless it is out of place. -/
def step (r : Reader) (c : Char) : Option Reader :=
  match r.mode with
  | .value => begin r.stack c
  | .name =>
    if isBlank c then some r
    else if c = '"' then some ⟨.text [], r.stack⟩
    else match r.stack with
      | .name [] :: st => if c = '\x7d' then some ⟨.done (.object []), st⟩ else none
      | _ => none
  | .colon =>
    if isBlank c then some r
    else if c = ':' then some ⟨.value, r.stack⟩
    else none
  | .text acc =>
    if c = '"' then some (close acc r.stack)
    else if c = '\\' then some ⟨.escape acc, r.stack⟩
    else if isControl c then none
    else some ⟨.text (acc ++ [c]), r.stack⟩
  | .escape acc =>
    if c = 'u' then some ⟨.code acc 0 3, r.stack⟩
    else (unescape c).map fun d => ⟨.text (acc ++ [d]), r.stack⟩
  | .code acc n more =>
    (Text.hexValue c).bind fun d =>
      match more with
      | more + 1 => some ⟨.code acc (n * 16 + d) more, r.stack⟩
      | 0 => (charOf (n * 16 + d)).map fun x => ⟨.text (acc ++ [x]), r.stack⟩
  | .digits n =>
    if c.isDigit then
      if n = 0 then none else some ⟨.digits (n * 10 + (c.toNat - '0'.toNat)), r.stack⟩
    else next (.number n) r.stack c
  | .word [] _ => none
  | .word (d :: rest) v =>
    if c ≠ d then none
    else if rest.isEmpty then some ⟨.done v, r.stack⟩
    else some ⟨.word rest v, r.stack⟩
  | .done v => next v r.stack c

/-- The reader after some more characters. -/
def run (r : Reader) (cs : List Char) : Option Reader := cs.foldlM step r

/-- The value that was read, if nothing is open. -/
def Reader.result (r : Reader) : Option Json :=
  match r.mode, r.stack with
  | .done v, [] => some v
  | .digits n, [] => some (.number n)
  | _, _ => none

/-- The value that a text stands for. -/
def read? (cs : List Char) : Option Json := (run ⟨.value, []⟩ cs).bind Reader.result

section Parts

variable (r : Reader)

theorem run_append (as bs : List Char) : run r (as ++ bs) = (run r as).bind fun r => run r bs :=
  List.foldlM_append

theorem run_cons (c : Char) (cs : List Char) :
    run r (c :: cs) = (step r c).bind fun r => run r cs :=
  List.foldlM_cons

end Parts

section Strings

variable (acc : List Char) (st : List Frame)

-- A control character is different from a character that is none.
theorem ne_of_isControl (c d : Char) (hc : isControl c = true) (hd : isControl d = false) :
    c ≠ d := by
  rintro rfl
  exact Bool.false_ne_true (hd.symm.trans hc)

/-- A control character inside a string is refused. -/
theorem run_control (c : Char) (rest : List Char) (hc : isControl c = true) :
    run ⟨.text acc, st⟩ (c :: rest) = none := by
  have hquote : c ≠ '"' := ne_of_isControl c '"' hc rfl
  have hback : c ≠ '\\' := ne_of_isControl c '\\' hc rfl
  rw [run_cons]
  simp only [step, hquote, hback, hc, if_false, if_true, Option.bind_none]

/-- A character that is neither a quote, a backslash nor a control character
    stands for itself. -/
theorem run_plain (c : Char) (hquote : c ≠ '"') (hback : c ≠ '\\') (hc : isControl c = false) :
    run ⟨.text acc, st⟩ [c] = some ⟨.text (acc ++ [c]), st⟩ := by
  rw [run_cons]
  simp only [step, hquote, hback, hc, Bool.false_eq_true, if_false, Option.bind_some]
  rfl

/-- An escape by letter is read as the character that it stands for. -/
theorem run_letter (c d : Char) (hu : c ≠ 'u') (hd : unescape c = some d) :
    run ⟨.text acc, st⟩ ['\\', c] = some ⟨.text (acc ++ [d]), st⟩ := by
  have hback : step ⟨.text acc, st⟩ '\\' = some ⟨.escape acc, st⟩ := rfl
  rw [run_cons, hback, Option.bind_some, run_cons]
  simp only [step, hu, if_false, hd, Option.map_some, Option.bind_some]
  rfl

-- One more digit of a code.
theorem run_code (n more d : Nat) (hd : d < 16) (rest : List Char) :
    run ⟨.code acc n (more + 1), st⟩ (d.digitChar :: rest) =
      run ⟨.code acc (n * 16 + d) more, st⟩ rest := by
  rw [run_cons]
  simp only [step, Text.hexValue_digitChar d hd, Option.bind_some]

/-- An escape by number is read as the character with that number. -/
theorem run_number (c : Char) (hc : c.toNat < 32) :
    run ⟨.text acc, st⟩ ("\\u00" ++ String.ofList
      (Nat.toDigits 16 (c.toNat / 16) ++ Nat.toDigits 16 (c.toNat % 16))).toList =
      some ⟨.text (acc ++ [c]), st⟩ := by
  have hlow : c.toNat % 16 < 16 := Nat.mod_lt _ (Nat.succ_pos 15)
  have hhigh : c.toNat / 16 < 16 := by omega
  have hvalue : (0 * 16 + c.toNat / 16) * 16 + c.toNat % 16 = c.toNat := by omega
  have hvalid : c.toNat.isValidChar := c.valid
  have hopen : ∀ rest, run ⟨.text acc, st⟩ (['\\', 'u', '0', '0'] ++ rest) =
      run ⟨.code acc 0 1, st⟩ rest := fun _ => rfl
  rw [String.toList_append, String.toList_ofList, String.toList_ofList, hopen,
    Nat.toDigits_of_lt_base hhigh, Nat.toDigits_of_lt_base hlow, List.singleton_append,
    run_code acc st 0 0 _ hhigh, run_cons]
  simp only [step, Text.hexValue_digitChar _ hlow, Option.bind_some, hvalue, charOf, hvalid,
    if_true, Char.ofNat_toNat, Option.map_some]
  rfl

/-- An escaped character is read as that character. -/
theorem run_escape (c : Char) :
    run ⟨.text acc, st⟩ (escape c).toList = some ⟨.text (acc ++ [c]), st⟩ := by
  unfold escape
  split_ifs with hquote hback h3 h4 h5 h6 h7 hlow
  · subst hquote
    exact run_letter acc st '"' '"' (by decide) rfl
  · subst hback
    exact run_letter acc st '\\' '\\' (by decide) rfl
  · subst h3
    exact run_letter acc st 'n' '\n' (by decide) rfl
  · subst h4
    exact run_letter acc st 'r' '\r' (by decide) rfl
  · subst h5
    exact run_letter acc st 't' '\t' (by decide) rfl
  · subst h6
    exact run_letter acc st 'b' '\x08' (by decide) rfl
  · subst h7
    exact run_letter acc st 'f' '\x0c' (by decide) rfl
  · exact run_number acc st c hlow
  · rw [Char.toString_eq_singleton, String.toList_singleton]
    exact run_plain acc st c hquote hback (decide_eq_false hlow)

theorem run_chars (cs : List Char) :
    run ⟨.text acc, st⟩ (cs.flatMap fun c => (escape c).toList) = some ⟨.text (acc ++ cs), st⟩ := by
  induction cs generalizing acc with
  | nil => rw [List.append_nil]; rfl
  | cons c cs ih =>
      rw [List.flatMap_cons, run_append, run_escape, Option.bind_some, ih, List.append_assoc]
      rfl

theorem toList_quoted (s : String) :
    (quoted s).toList = '"' :: (s.toList.flatMap (fun c => (escape c).toList) ++ ['"']) := by
  rw [quoted, String.toList_append, String.toList_append, String.toList_join, List.flatMap_map]
  rfl

/-- A string is read up to its end. -/
theorem run_string (s : String) :
    run ⟨.text [], st⟩ (s.toList.flatMap (fun c => (escape c).toList) ++ ['"']) =
      some (close s.toList st) := by
  rw [run_append, run_chars, Option.bind_some, List.nil_append]
  rfl

end Strings

/-- What is open awaits a value and not a name. -/
def AwaitsValue : List Frame → Prop
  | .name _ :: _ => False
  | _ => True

theorem run_quoted (s : String) (st : List Frame) (hst : AwaitsValue st) :
    run ⟨.value, st⟩ (quoted s).toList = some ⟨.done (.string s), st⟩ := by
  have hclose : close s.toList st = ⟨.done (.string s), st⟩ := by
    rcases st with _ | ⟨_ | _ | _, st⟩
    · simp only [close, String.ofList_toList]
    · simp only [close, String.ofList_toList]
    · exact hst.elim
    · simp only [close, String.ofList_toList]
  rw [toList_quoted, ← hclose]
  exact run_string st s

theorem run_quoted_name (s : String) (before : List (String × Json)) (st : List Frame) :
    run ⟨.name, .name before :: st⟩ (quoted s).toList = some ⟨.colon, .field before s :: st⟩ := by
  rw [toList_quoted]
  refine (run_string _ s).trans ?_
  rw [close, String.ofList_toList]

-- The first digit of a number, and a further one.
theorem begin_digit (st : List Frame) (d : Nat) (hd : d < 10) :
    begin st d.digitChar = some ⟨.digits d, st⟩ := by
  have hall : ∀ d : Fin 10, isBlank d.val.digitChar = false ∧ d.val.digitChar ≠ '"' := by decide
  rcases hall ⟨d, hd⟩ with ⟨hblank, hquote⟩
  have hdigit : d.digitChar.isDigit = true := by
    rw [Nat.isDigit_digitChar, decide_eq_true hd]
  simp only [begin, hblank, hquote, hdigit, Bool.false_eq_true, if_false, if_true,
    Char.reduceToNat, Nat.toNat_digitChar_sub_48_of_lt_ten hd]

theorem step_digit (st : List Frame) (n d : Nat) (hn : n ≠ 0) (hd : d < 10) :
    step ⟨.digits n, st⟩ d.digitChar = some ⟨.digits (n * 10 + d), st⟩ := by
  have hdigit : d.digitChar.isDigit = true := by
    rw [Nat.isDigit_digitChar, decide_eq_true hd]
  simp only [step, hdigit, hn, if_false, if_true, Char.reduceToNat,
    Nat.toNat_digitChar_sub_48_of_lt_ten hd]

/-- The digits of a number are read as that number. -/
theorem run_digits (n : Nat) (st : List Frame) :
    run ⟨.value, st⟩ (Nat.repr n).toList = some ⟨.digits n, st⟩ := by
  rw [Nat.toList_repr]
  induction n using Nat.base_induction 10 (Nat.one_lt_succ_succ 8) with
  | single d hd =>
      rw [Nat.toDigits_of_lt_base hd, run_cons]
      change (begin st d.digitChar).bind _ = _
      rw [begin_digit st d hd]
      rfl
  | digit n d hd hn ih =>
      rw [← Nat.toDigits_append_toDigits (Nat.one_lt_succ_succ 8) hn hd, run_append, ih,
        Nat.toDigits_of_lt_base hd, Option.bind_some, run_cons,
        step_digit st n d (Nat.pos_iff_ne_zero.mp hn) hd, Nat.mul_comm n 10]
      rfl

/-- The value was read, or it is a number that ends here. -/
structure Ends (v : Json) (st : List Frame) (r : Reader) : Prop where
  next : ∀ c : Char, c.isDigit = false → step r c = next v st c
  result : st = [] → r.result = some v

theorem ends_done (v : Json) (st : List Frame) : Ends v st ⟨.done v, st⟩ :=
  ⟨fun _ _ => rfl, fun hst => by rw [hst]; rfl⟩

theorem ends_digits (n : Nat) (st : List Frame) : Ends (.number n) st ⟨.digits n, st⟩ := by
  refine ⟨fun c hc => ?_, fun hst => by rw [hst]; rfl⟩
  simp only [step, hc, Bool.false_eq_true, if_false]

section Read

/-- The reader takes a text in for a value. -/
def Takes (cs : List Char) (v : Json) : Prop :=
  ∀ st, AwaitsValue st → ∃ r, run ⟨.value, st⟩ cs = some r ∧ Ends v st r

variable (v : Json) (st : List Frame)

theorem takes_word (cs : List Char) (h : ∀ st, run ⟨.value, st⟩ cs = some ⟨.done v, st⟩) :
    Takes cs v := fun st _ => ⟨_, h st, ends_done v st⟩

/-- A value that is taken in goes on with what comes after it. -/
theorem Takes.run_cons (cs : List Char) (h : Takes cs v) (hst : AwaitsValue st) (c : Char)
    (hc : c.isDigit = false) (rest : List Char) :
    run ⟨.value, st⟩ (cs ++ c :: rest) = (next v st c).bind fun r => run r rest := by
  rcases h st hst with ⟨r, hrun, hends⟩
  rw [run_append, hrun, Option.bind_some, Json.run_cons, hends.next c hc]

/-- A field is read up to the end of its value. -/
theorem Takes.run_field (k : String) (cs : List Char) (h : Takes cs v)
    (before : List (String × Json)) (c : Char) (hc : c.isDigit = false) (rest : List Char) :
    run ⟨.name, .name before :: st⟩ ((quoted k).toList ++ ':' :: (cs ++ c :: rest)) =
      (next v (.field before k :: st) c).bind fun r => run r rest := by
  rw [run_append, run_quoted_name, Option.bind_some]
  exact h.run_cons v (.field before k :: st) cs trivial c hc rest

end Read

mutual

/-- A value is taken in from its written form. -/
theorem takes_render : ∀ v : Json, Takes v.render.toList v
  | .null => takes_word _ _ fun _ => rfl
  | .bool true => takes_word _ _ fun _ => rfl
  | .bool false => takes_word _ _ fun _ => rfl
  | .number n => fun st _ => ⟨_, run_digits n st, ends_digits n st⟩
  | .string s => fun st hst => ⟨_, run_quoted s st hst, ends_done _ st⟩
  | .array [] => takes_word _ _ fun _ => rfl
  | .array (v :: rest) => takes_word _ _ fun st => by
      rw [render, String.toList_append, String.toList_append, List.append_assoc]
      exact run_items (v :: rest) (List.cons_ne_nil v rest) [] st
  | .object [] => takes_word _ _ fun _ => rfl
  | .object (f :: rest) => takes_word _ _ fun st => by
      rw [render, String.toList_append, String.toList_append, List.append_assoc]
      exact run_fields (f :: rest) (List.cons_ne_nil f rest) [] st '\x7d' [] _ rfl
        fun _ _ _ hfront => by rw [← List.nil_append (f :: rest), ← hfront]; rfl

/-- The items of an array are read up to its end. -/
theorem run_items : ∀ (items : List Json), items ≠ [] → ∀ before st,
    run ⟨.value, .item before :: st⟩
      ((String.intercalate "," (renderItems items)).toList ++ [']']) =
        some ⟨.done (.array (before ++ items)), st⟩
  | [v], _, before, st => by
      rw [renderItems, renderItems, String.intercalate_singleton]
      exact (takes_render v).run_cons v (.item before :: st) _ trivial ']' rfl []
  | v :: w :: rest, _, before, st => by
      rw [renderItems, renderItems, String.intercalate_cons_cons, ← renderItems,
        String.toList_append, String.toList_append, List.append_assoc, List.append_assoc]
      refine ((takes_render v).run_cons v (.item before :: st) _ trivial ',' rfl _).trans ?_
      refine (run_items (w :: rest) (List.cons_ne_nil w rest) (before ++ [v]) st).trans ?_
      rw [List.append_assoc]
      rfl

/-- The fields of an object are read up to the comma or the brace after them. -/
theorem run_fields : ∀ (fields : List (String × Json)), fields ≠ [] → ∀ before st c rest r,
    c.isDigit = false →
    (∀ front k v, front ++ [(k, v)] = before ++ fields →
      next v (.field front k :: st) c = some r) →
    run ⟨.name, .name before :: st⟩
      ((String.intercalate "," (renderFields fields)).toList ++ c :: rest) = run r rest
  | [(k, v)], _, before, st, c, rest, r, hc, hnext => by
      rw [renderFields, renderFields, String.intercalate_singleton, String.toList_append,
        String.toList_append, List.append_assoc, List.append_assoc]
      refine ((takes_render v).run_field v st k _ before c hc rest).trans ?_
      rw [hnext before k v rfl, Option.bind_some]
  | (k, v) :: (l, w) :: fields, _, before, st, c, rest, r, hc, hnext => by
      rw [renderFields, renderFields, String.intercalate_cons_cons, ← renderFields]
      simp only [String.toList_append, List.append_assoc]
      refine ((takes_render v).run_field v st k _ before ',' rfl _).trans ?_
      refine run_fields ((l, w) :: fields) (List.cons_ne_nil (l, w) fields) (before ++ [(k, v)])
        st c rest r hc fun front m x hfront => hnext front m x ?_
      rw [hfront, List.append_assoc]
      rfl

end

/-- A value is read back from its written form. -/
theorem read?_render (v : Json) : read? v.render.toList = some v := by
  rcases takes_render v [] trivial with ⟨r, hrun, hends⟩
  rw [read?, hrun, Option.bind_some, hends.result rfl]

/-- The fields in front of a comma are read, and the next name is awaited. -/
theorem run_fields_comma (fields : List (String × Json)) (hne : fields ≠ [])
    (before : List (String × Json)) (st : List Frame) (rest : List Char) :
    run ⟨.name, .name before :: st⟩
      ((String.intercalate "," (renderFields fields)).toList ++ ',' :: rest) =
        run ⟨.name, .name (before ++ fields) :: st⟩ rest :=
  run_fields fields hne before st ',' rest _ rfl fun _ _ _ hfront => by
    rw [← hfront]
    rfl

/-- The character stands for itself inside a string. -/
def isPlain (c : Char) : Bool := c ≠ '"' && c ≠ '\\' && !isControl c

/-- All characters of a text stand for themselves. -/
def Plain (s : String) : Prop := ∀ c ∈ s.toList, isPlain c = true

-- Given, since the search finds an instance that tries every character there is.
instance (s : String) : Decidable (Plain s) :=
  List.decidableBAll (isPlain · = true) s.toList

section Plain

theorem isControl_of_isPlain (c : Char) (hc : isPlain c = true) : isControl c = false := by
  rw [isPlain, Bool.and_eq_true, Bool.not_eq_true'] at hc
  exact hc.2

theorem escape_plain (c : Char) (hc : isPlain c = true) : (escape c).toList = [c] := by
  have hother : ∀ d, isPlain d = false → c ≠ d := fun d hd he => by
    rw [he, hd] at hc
    exact Bool.false_ne_true hc
  have hhigh : ¬ c.toNat < 32 := of_decide_eq_false (isControl_of_isPlain c hc)
  rw [escape, if_neg (hother '"' rfl), if_neg (hother '\\' rfl), if_neg (hother '\n' rfl),
    if_neg (hother '\r' rfl), if_neg (hother '\t' rfl), if_neg (hother '\x08' rfl),
    if_neg (hother '\x0c' rfl), if_neg hhigh, Char.toString_eq_singleton, String.toList_singleton]

/-- A text of such characters needs only the quotes. -/
theorem quoted_plain (s : String) (hs : Plain s) : quoted s = "\"" ++ s ++ "\"" := by
  have hsame : s.toList.flatMap (fun c => (escape c).toList) = s.toList := by
    rw [List.flatMap_congr fun c hc => escape_plain c (hs c hc)]
    exact List.flatMap_singleton' s.toList
  rw [← String.toList_inj, toList_quoted, hsame, String.toList_append, String.toList_append]
  rfl

theorem isPlain_toDigits (b n : Nat) (hpos : 1 < b) (hb : b ≤ 16) :
    ∀ c ∈ Nat.toDigits b n, isPlain c = true := by
  have hdigit : ∀ d : Fin 16, isPlain d.val.digitChar = true := by decide
  induction n using Nat.base_induction b hpos with
  | single d hd =>
      intro c hc
      rw [Nat.toDigits_of_lt_base hd, List.mem_singleton] at hc
      exact hc ▸ hdigit ⟨d, Nat.lt_of_lt_of_le hd hb⟩
  | digit n d hd hn ih =>
      intro c hc
      rw [← Nat.toDigits_append_toDigits hpos hn hd, Nat.toDigits_of_lt_base hd, List.mem_append,
        List.mem_singleton] at hc
      rcases hc with hc | hc
      · exact ih c hc
      · exact hc ▸ hdigit ⟨d, Nat.lt_of_lt_of_le hd hb⟩

end Plain

/-- No character of a text is a control character. -/
def Printed (s : String) : Prop := ∀ c ∈ s.toList, isControl c = false

instance (s : String) : Decidable (Printed s) :=
  List.decidableBAll (isControl · = false) s.toList

section Printed

theorem printed_append (s t : String) (hs : Printed s) (ht : Printed t) : Printed (s ++ t) := by
  intro c hc
  rw [String.toList_append, List.mem_append] at hc
  exact hc.elim (hs c) (ht c)

theorem printed_intercalate (sep : String) (texts : List String) (hsep : Printed sep)
    (h : ∀ s ∈ texts, Printed s) : Printed (String.intercalate sep texts) := by
  induction texts with
  | nil => exact fun c hc => absurd hc List.not_mem_nil
  | cons s texts ih =>
      have hs := h s List.mem_cons_self
      cases texts with
      | nil => rwa [String.intercalate_singleton]
      | cons t texts =>
          rw [String.intercalate_cons_cons]
          exact printed_append _ _ (printed_append _ _ hs hsep)
            (ih fun s hs => h s (List.mem_cons_of_mem _ hs))

/-- The control characters are written by other characters. -/
theorem printed_escape (c : Char) : Printed (escape c) := by
  by_cases hlow : c.toNat < 32
  · have hall : ∀ n : Fin 32, Printed (escape (Char.ofNat n.val)) := by decide
    have hc := hall ⟨c.toNat, hlow⟩
    rwa [Char.ofNat_toNat] at hc
  · by_cases hquote : c = '"'
    · subst hquote
      decide
    · by_cases hback : c = '\\'
      · subst hback
        decide
      · have hplain : isPlain c = true := by
          rw [isPlain, isControl, decide_eq_true hquote, decide_eq_true hback,
            decide_eq_false hlow]
          rfl
        intro x hx
        rw [escape_plain c hplain, List.mem_singleton] at hx
        exact hx ▸ decide_eq_false hlow

theorem printed_quoted (s : String) : Printed (quoted s) := by
  intro c hc
  rw [toList_quoted, List.mem_cons, List.mem_append, List.mem_singleton, List.mem_flatMap] at hc
  rcases hc with rfl | ⟨x, _, hc⟩ | rfl
  · rfl
  · exact printed_escape x c hc
  · rfl

mutual

/-- A value is written without control characters. -/
theorem printed_render : ∀ v : Json, Printed v.render
  | .null => by decide
  | .bool true => by decide
  | .bool false => by decide
  | .number n => fun c hc => by
      rw [render, Nat.toList_repr] at hc
      exact isControl_of_isPlain c (isPlain_toDigits 10 n (by decide) (by decide) c hc)
  | .string s => printed_quoted s
  | .array items =>
      printed_append _ _ (printed_append _ _ (by decide)
        (printed_intercalate _ _ (by decide) (printed_renderItems items))) (by decide)
  | .object fields =>
      printed_append _ _ (printed_append _ _ (by decide)
        (printed_intercalate _ _ (by decide) (printed_renderFields fields))) (by decide)

theorem printed_renderItems : ∀ items : List Json, ∀ s ∈ renderItems items, Printed s
  | [] => fun s hs => absurd hs List.not_mem_nil
  | v :: rest => fun s hs => by
      rcases List.mem_cons.mp hs with rfl | hs
      · exact printed_render v
      · exact printed_renderItems rest s hs

theorem printed_renderFields : ∀ fields : List (String × Json), ∀ s ∈ renderFields fields, Printed s
  | [] => fun s hs => absurd hs List.not_mem_nil
  | (k, v) :: rest => fun s hs => by
      rcases List.mem_cons.mp hs with rfl | hs
      · exact printed_append _ _ (printed_append _ _ (printed_quoted k) (by decide))
          (printed_render v)
      · exact printed_renderFields rest s hs

end

end Printed

end Json

end TreeWatch
