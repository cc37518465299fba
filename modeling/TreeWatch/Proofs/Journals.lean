import Mathlib.Algebra.GroupWithZero.Nat
import Mathlib.Data.List.Basic
import TreeWatch.Journal
import TreeWatch.Proofs.Reading

/-!
# Reading the Journal Back

A journal is written to be read by others: one JSON object on each line, with
the fields that were set. Here it is read back. The text is taken apart at the
line breaks, each line is read as JSON, and the fields of the object are looked
up by name, in whatever order they stand.

What a line says is what was recorded, unless the context has a control
character. The context is the one field of a line that anything can be written
to, and only its quotes and backslashes are escaped. A line break in it ends
the line, and the other control characters are not allowed inside a JSON
string. So a context is read back if and only if it is legible
(`Entry.Legible`), and this is all there is to it: the reader goes through the
fields in front of the context, through the context up to its first control
character, and refuses that.

## Main definitions

* `Text.readHex`, `Text.lines`: The number that hexadecimal digits stand for,
  and the lines of a text.
* `Reading`: What a line says.
* `Reading.read?`: A line, read.
* `Entry.slots`, `Entry.toJson`: An entry as an object.
* `Entry.Legible`: The context has no control character.
* `Journal.Keeps`: What a journal retains of the entries that were recorded.
* `Journal.linesAt`: The text of a journal under any clock.

## Theorems

* `Text.length_lines`, `Text.lines_intercalate`: When lines are found again.
* `Json.lookup_present`: Fields are found by name.
* `Entry.ofJson_toJson`: An entry is read back from its object.
* `Entry.line_eq_render`: The line of an entry with a legible context is that
  object.
* `Entry.run_shield`: A control character in a context is refused.
* `Entry.read?_line_iff`: When a line is read back.
* `Journal.Keeps.record`, `Journal.Keeps.records`: What one more entry does, and
  any number of them.
* `Journal.readable_iff`: When a journal is read back.
-/

namespace TreeWatch

namespace Text

/-- The number that hexadecimal digits stand for. -/
def readHex (cs : List Char) : Option Nat :=
  if cs.isEmpty then none else cs.foldlM (fun n c => (hexValue c).map fun d => n * 16 + d) 0

/-- The lines of a text. An empty text has none. -/
def lines (cs : List Char) : List (List Char) := if cs.isEmpty then [] else cs.splitOn '\n'

section Hex

theorem foldlM_toDigits (n : Nat) :
    (Nat.toDigits 16 n).foldlM (fun n c => (hexValue c).map fun d => n * 16 + d) 0 = some n := by
  induction n using Nat.base_induction 16 (Nat.one_lt_succ_succ 14) with
  | single d hd =>
      rw [Nat.toDigits_of_lt_base hd, List.foldlM_cons, hexValue_digitChar d hd, Nat.zero_mul,
        Option.map_some, Nat.zero_add]
      rfl
  | digit n d hd hn ih =>
      rw [← Nat.toDigits_append_toDigits (Nat.one_lt_succ_succ 14) hn hd, List.foldlM_append, ih,
        Nat.toDigits_of_lt_base hd, Option.bind_eq_bind, Option.bind_some, List.foldlM_cons,
        hexValue_digitChar d hd, Nat.mul_comm 16 n]
      rfl

/-- A number is read back from its digits, with any number of zeros in front. -/
theorem readHex_zeros (k n : Nat) :
    readHex (List.replicate k '0' ++ Nat.toDigits 16 n) = some n := by
  have hzeros : (List.replicate k '0').foldlM (fun n c => (hexValue c).map fun d => n * 16 + d) 0 =
      some 0 := by
    induction k with
    | zero => rfl
    | succ k ih => exact ih
  have hne : (List.replicate k '0' ++ Nat.toDigits 16 n).isEmpty = false := by
    rw [List.isEmpty_eq_false_iff, ne_eq, List.append_eq_nil_iff, not_and]
    exact fun _ => Nat.toDigits_ne_nil
  rw [readHex, hne, List.foldlM_append, hzeros]
  exact foldlM_toDigits n

end Hex

section Lines

theorem length_splitOn (a : Char) (cs : List Char) :
    (cs.splitOn a).length = cs.count a + 1 := by
  induction cs with
  | nil => rfl
  | cons c cs ih =>
      rw [List.splitOn_cons_eq_if_modifyHead, List.count_cons]
      by_cases hc : (c == a) = true
      · rw [if_pos hc, if_pos hc, List.length_cons, ih]
      · rw [if_neg hc, if_neg hc, List.length_modifyHead, ih]

theorem count_intercalate (a b : Char) (ls : List (List Char)) :
    ([b].intercalate ls).count a =
      (ls.map (List.count a)).sum + (ls.length - 1) * if b = a then 1 else 0 := by
  induction ls with
  | nil => simp only [List.intercalate_nil, List.count_nil, List.map_nil, List.sum_nil,
      List.length_nil, Nat.zero_sub, Nat.zero_mul, Nat.add_zero]
  | cons l ls ih =>
      cases ls with
      | nil => simp only [List.intercalate_singleton, List.map_cons, List.map_nil, List.sum_cons,
          List.sum_nil, List.length_singleton, Nat.sub_self, Nat.zero_mul, Nat.add_zero]
      | cons m ls =>
          rw [List.intercalate_cons_cons, List.count_append, List.count_append, ih,
            List.count_singleton]
          simp only [List.map_cons, List.sum_cons, List.length_cons, beq_iff_eq,
            Nat.add_sub_cancel]
          split
          · omega
          · omega

variable (ls : List (List Char)) (hne : ∀ l ∈ ls, l ≠ [])

include hne

theorem lines_eq_splitOn (hls : ls ≠ []) :
    lines (['\n'].intercalate ls) = (['\n'].intercalate ls).splitOn '\n' := by
  refine if_neg ?_
  rcases List.exists_cons_of_ne_nil hls with ⟨l, rest, rfl⟩
  rcases List.exists_cons_of_ne_nil (hne l List.mem_cons_self) with ⟨c, cs, rfl⟩
  rw [List.intercalate_cons_cons_left]
  exact Bool.false_ne_true

/-- There is one more line for each line break within the lines. -/
theorem length_lines :
    (lines (['\n'].intercalate ls)).length = ls.length + (ls.map (List.count '\n')).sum := by
  by_cases hls : ls = []
  · subst hls
    rfl
  · have hpos := List.length_pos_iff.mpr hls
    rw [lines_eq_splitOn ls hne hls, length_splitOn, count_intercalate, if_pos rfl]
    omega

/-- Lines without line breaks are found again. -/
theorem lines_intercalate (h : ∀ l ∈ ls, '\n' ∉ l) : lines (['\n'].intercalate ls) = ls := by
  by_cases hls : ls = []
  · subst hls
    rfl
  · rw [lines_eq_splitOn ls hne hls, List.splitOn_intercalate '\n' h hls]

end Lines

end Text

namespace Json

/-- The number that a value is. -/
def asNumber : Json → Option Nat
  | number n => some n
  | _ => none

/-- The text that a value is. -/
def asText : Json → Option String
  | string s => some s
  | _ => none

end Json

/-- The machine word that hexadecimal digits stand for. -/
def Text.readHexWord (cs : List Char) : Option UInt64 :=
  (readHex cs).bind fun n => if n < wordBound then some (UInt64.ofNat n) else none

/-- The handle that an address stands for. -/
def Handle.ofText (s : String) : Option Handle :=
  match s.toList with
  | '0' :: 'x' :: digits => (Text.readHexWord digits).map Handle.mk
  | _ => none

/-- The occurrence that a word stands for. -/
def Occurrence.ofText (s : String) : Option Occurrence :=
  [passCompleted, notificationApplied, modelReset, resyncRequested, staleHandle,
    inconsistencyRecovered, attributesFlushed].find? (·.text = s)

theorem Text.readHexWord_zeros (k : Nat) (w : UInt64) :
    readHexWord (List.replicate k '0' ++ Nat.toDigits 16 w.toNat) = some w := by
  have hlt : w.toNat < wordBound := w.toNat_lt
  rw [readHexWord, readHex_zeros, Option.bind_some, if_pos hlt, UInt64.ofNat_toNat]

theorem Handle.ofText_text (h : Handle) : ofText h.text = some h := by
  have hdigits := Text.readHexWord_zeros 0 h.raw
  rw [List.replicate_zero, List.nil_append] at hdigits
  have htext : h.text.toList = '0' :: 'x' :: Nat.toDigits 16 h.raw.toNat := by
    rw [text, String.toList_append, String.toList_ofList, String.toList_ofList]
    rfl
  rw [ofText, htext]
  change (Text.readHexWord (Nat.toDigits 16 h.raw.toNat)).map Handle.mk = some h
  rw [hdigits]
  rfl

theorem Occurrence.ofText_text (k : Occurrence) : ofText k.text = some k := by
  cases k <;> decide

namespace Json

/-- The occurrence that a value names. -/
def asOccurrence (v : Json) : Option Occurrence := v.asText.bind Occurrence.ofText

/-- The handle that a value names. -/
def asHandle (v : Json) : Option Handle := v.asText.bind Handle.ofText

/-- The machine word that a value has the digits of. -/
def asWord (v : Json) : Option UInt64 := v.asText.bind fun s => Text.readHexWord s.toList

end Json

/-- What a line says: the number, the time, the entry and the checksum. -/
structure Reading where
  seq : Nat
  timestampUs : Nat
  entry : Entry
  checksum : UInt64
deriving DecidableEq

namespace Reading

/-- The value of a field that has to be there. -/
def required {α : Type} (fields : List (String × Json)) (name : String) (f : Json → Option α) :
    Option α :=
  (fields.lookup name).bind f

/-- The value of a field that may be missing. -/
def optional {α : Type} (fields : List (String × Json)) (name : String) (f : Json → Option α) :
    Option (Option α) :=
  match fields.lookup name with
  | none => some none
  | some v => (f v).map some

/-- What an object says, by the names of its fields. -/
def ofJson : Json → Option Reading
  | .object fields => do
    let seq ← required fields "seq" Json.asNumber
    let timestampUs ← required fields "ts_us" Json.asNumber
    let kind ← required fields "kind" Json.asOccurrence
    let node ← optional fields "node" Json.asHandle
    let removed ← optional fields "removed" Json.asNumber
    let inserted ← optional fields "inserted" Json.asNumber
    let relocated ← optional fields "relocated" Json.asNumber
    let deleted ← optional fields "deleted" Json.asNumber
    let tracked ← optional fields "tracked" Json.asNumber
    let durationUs ← optional fields "duration_us" Json.asNumber
    let context ← optional fields "context" Json.asText
    let checksum ← required fields "checksum" Json.asWord
    return ⟨seq, timestampUs, ⟨kind, node, removed, inserted, relocated, deleted, tracked,
      durationUs, context⟩, checksum⟩
  | _ => none

/-- What a line says. -/
def read? (cs : List Char) : Option Reading := (Json.read? cs).bind ofJson

end Reading

/-- The fields that are there. -/
def Json.present (slots : List (String × Option Json)) : List (String × Json) :=
  slots.filterMap fun slot => slot.2.map fun v => (slot.1, v)

section Present

open Json (present)

variable {α : Type} (slots : List (String × Option Json)) (name : String) (f : Json → Option α)

/-- A name that is not used twice stands for what belongs to it. -/
theorem Json.lookup_present (hnd : (slots.map Prod.fst).Nodup) (o : Option Json)
    (ho : (name, o) ∈ slots) : (present slots).lookup name = o := by
  induction slots with
  | nil => exact absurd ho List.not_mem_nil
  | cons slot slots ih =>
      rcases slot with ⟨key, v⟩
      rw [List.map_cons, List.nodup_cons] at hnd
      rcases List.mem_cons.mp ho with he | hrest
      · rw [Prod.mk.injEq] at he
        rcases he with ⟨rfl, rfl⟩
        cases o with
        | some v => exact List.lookup_cons_self
        | none =>
            refine List.lookup_eq_none_iff.mpr fun field hfield => ?_
            rcases List.mem_filterMap.mp hfield with ⟨slot, hslot, hv⟩
            rcases List.mem_cons.mp hslot with rfl | hslot
            · exact absurd hv.symm (Option.some_ne_none field)
            · rcases Option.map_eq_some_iff.mp hv with ⟨v, _, rfl⟩
              rw [bne_iff_ne]
              exact fun he => hnd.1 (List.mem_map.mpr ⟨slot, hslot, he.symm⟩)
      · have hne : (name == key) = false :=
          beq_eq_false_iff_ne.mpr fun he => hnd.1 (List.mem_map.mpr ⟨(name, o), hrest, he⟩)
        cases v with
        | none => exact ih hnd.2 hrest
        | some v =>
            refine List.lookup_cons.trans ?_
            rw [hne]
            exact ih hnd.2 hrest

theorem Reading.required_present (hnd : (slots.map Prod.fst).Nodup) (v : Json) (a : α)
    (hv : (name, some v) ∈ slots) (ha : f v = some a) :
    required (present slots) name f = some a := by
  rw [required, Json.lookup_present slots name hnd _ hv, Option.bind_some, ha]

theorem Reading.optional_present (hnd : (slots.map Prod.fst).Nodup) (o : Option α) (g : α → Json)
    (hv : (name, o.map g) ∈ slots) (hf : ∀ a, f (g a) = some a) :
    optional (present slots) name f = some o := by
  rw [optional, Json.lookup_present slots name hnd _ hv]
  cases o with
  | none => rfl
  | some a => exact congrArg (Option.map some) (hf a)

end Present

namespace Entry

/-- The fields of an entry in front of the context. -/
def slotsBefore (e : Entry) (seq timestampUs : Nat) : List (String × Option Json) :=
  [("seq", some (.number seq)), ("ts_us", some (.number timestampUs)),
    ("kind", some (.string e.kind.text)), ("node", e.node.map fun h => .string h.text),
    ("removed", e.removed.map .number), ("inserted", e.inserted.map .number),
    ("relocated", e.relocated.map .number), ("deleted", e.deleted.map .number),
    ("tracked", e.tracked.map .number), ("duration_us", e.durationUs.map .number)]

/-- The field behind the context. -/
def slotsBehind (e : Entry) : List (String × Option Json) :=
  [("checksum", some (.string (Text.paddedHex e.checksum.toNat)))]

/-- The fields of an entry. -/
def slots (e : Entry) (seq timestampUs : Nat) : List (String × Option Json) :=
  e.slotsBefore seq timestampUs ++ ("context", e.context.map .string) :: e.slotsBehind

/-- The object that an entry is meant to be written as. -/
def toJson (e : Entry) (seq timestampUs : Nat) : Json :=
  .object (Json.present (e.slots seq timestampUs))

/-- An entry is read back from the object that it is meant to be written as. -/
theorem ofJson_toJson (e : Entry) (seq timestampUs : Nat) :
    Reading.ofJson (e.toJson seq timestampUs) = some ⟨seq, timestampUs, e, e.checksum⟩ := by
  have hnd : ((e.slots seq timestampUs).map Prod.fst).Nodup := by
    change ["seq", "ts_us", "kind", "node", "removed", "inserted", "relocated", "deleted",
      "tracked", "duration_us", "context", "checksum"].Nodup
    decide
  have hchecksum : Json.asWord (.string (Text.paddedHex e.checksum.toNat)) = some e.checksum := by
    rw [Json.asWord, Json.asText, Option.bind_some, Text.paddedHex, String.toList_ofList]
    exact Text.readHexWord_zeros _ e.checksum
  rw [toJson]
  generalize hfields : e.slots seq timestampUs = fields at hnd ⊢
  -- Each field is where its name says, and the order of the fields does not matter.
  have hmem : ∀ slot ∈ e.slots seq timestampUs, slot ∈ fields := by
    rw [hfields]
    exact fun _ h => h
  simp only [slots, slotsBefore, slotsBehind, List.cons_append, List.nil_append,
    List.forall_mem_cons] at hmem
  rcases hmem with ⟨hseq, htime, hkind, hnode, hremoved, hinserted, hrelocated, hdeleted, htracked,
    hduration, hcontext, hsum, _⟩
  have hnumber : ∀ name o, (name, o.map Json.number) ∈ fields →
      Reading.optional (Json.present fields) name Json.asNumber = some o :=
    fun name o hv => Reading.optional_present fields name _ hnd o Json.number hv fun _ => rfl
  rw [Reading.ofJson, Reading.required_present fields _ Json.asNumber hnd _ seq hseq rfl,
    Reading.required_present fields _ Json.asNumber hnd _ timestampUs htime rfl,
    Reading.required_present fields _ Json.asOccurrence hnd _ e.kind hkind e.kind.ofText_text,
    Reading.optional_present fields _ Json.asHandle hnd e.node _ hnode Handle.ofText_text,
    hnumber _ e.removed hremoved, hnumber _ e.inserted hinserted,
    hnumber _ e.relocated hrelocated, hnumber _ e.deleted hdeleted, hnumber _ e.tracked htracked,
    hnumber _ e.durationUs hduration,
    Reading.optional_present fields _ Json.asText hnd e.context _ hcontext fun _ => rfl,
    Reading.required_present fields _ Json.asWord hnd _ e.checksum hsum hchecksum]
  rfl

end Entry

namespace Json

theorem renderFields_present_cons (name : String) (o : Option Json)
    (slots : List (String × Option Json)) :
    renderFields (present ((name, o) :: slots)) =
      (o.map fun v => quoted name ++ ":" ++ v.render).toList ++ renderFields (present slots) := by
  cases o <;> rfl

theorem present_append (front back : List (String × Option Json)) :
    present (front ++ back) = present front ++ present back :=
  List.filterMap_append

theorem renderFields_append (front back : List (String × Json)) :
    renderFields (front ++ back) = renderFields front ++ renderFields back := by
  induction front with
  | nil => rfl
  | cons field front ih =>
      rcases field with ⟨k, v⟩
      rw [List.cons_append, renderFields, ih]
      rfl

end Json

namespace Entry

open Json (isPlain isControl quoted_plain renderFields_present_cons)

theorem field_eq (name value : String) (hname : Json.Plain name) :
    field name value = Json.quoted name ++ ":" ++ value := by
  have hcolon : "\":" = "\"" ++ ":" := rfl
  rw [quoted_plain name hname, field, hcolon]
  simp only [String.append_assoc]

theorem quoted_kind (k : Occurrence) : Json.quoted k.text = "\"" ++ k.text ++ "\"" :=
  quoted_plain _ (by cases k <;> decide)

theorem quoted_handle (h : Handle) : Json.quoted h.text = "\"" ++ h.text ++ "\"" := by
  refine quoted_plain _ fun c hc => ?_
  rw [Handle.text, String.toList_append, String.toList_ofList, String.toList_ofList,
    List.mem_append] at hc
  rcases hc with hc | hc
  · have hmark : Json.Plain "0x" := by decide
    exact hmark c hc
  · exact Json.isPlain_toDigits 16 _ (by decide) (by decide) c hc

theorem quoted_paddedHex (n : Nat) :
    Json.quoted (Text.paddedHex n) = "\"" ++ Text.paddedHex n ++ "\"" := by
  refine quoted_plain _ fun c hc => ?_
  rw [Text.paddedHex, String.toList_ofList, List.mem_append] at hc
  rcases hc with hc | hc
  · rw [(List.mem_replicate.mp hc).2]
    rfl
  · exact Json.isPlain_toDigits 16 _ (by decide) (by decide) c hc

/-- A line is the object that it is meant to be, but for the context. -/
theorem line_eq (e : Entry) (seq timestampUs : Nat) :
    e.line seq timestampUs = "\x7b" ++ String.intercalate ","
      (Json.renderFields (Json.present (e.slotsBefore seq timestampUs)) ++
        ((e.context.map fun c => Json.quoted "context" ++ ":" ++ quoted c).toList ++
          Json.renderFields (Json.present e.slotsBehind))) ++ "\x7d" := by
  have hempty : Json.renderFields (Json.present []) = [] := rfl
  simp (disch := decide) only [line, slotsBefore, slotsBehind, numberField, field_eq,
    renderFields_present_cons, hempty, quoted_kind, quoted_handle, quoted_paddedHex, Json.render,
    Option.map_map, Option.map_some, Option.toList_some, Function.comp_def, List.append_assoc,
    List.cons_append, List.nil_append, List.append_nil]

/-- The context, if there is one, has no control characters. -/
def Legible (e : Entry) : Prop := ∀ c ∈ e.context, Json.Printed c

instance (e : Entry) : Decidable e.Legible :=
  inferInstanceAs (Decidable (∀ c ∈ e.context, Json.Printed c))

/-- A character of a context as a line has it. -/
def shield (c : Char) : List Char := if c = '\\' || c = '"' then ['\\', c] else [c]

theorem toList_quoted (s : String) :
    (quoted s).toList = '"' :: (s.toList.flatMap shield ++ ['"']) := by
  rw [quoted, String.toList_append, String.toList_append, String.toList_ofList,
    String.toList_ofList]
  rfl

-- Only the control characters are not escaped as they have to be.
theorem shield_eq (c : Char) (hc : isControl c = false) : shield c = (Json.escape c).toList := by
  by_cases hquote : c = '"'
  · subst hquote
    rfl
  · by_cases hback : c = '\\'
    · subst hback
      rfl
    · have hplain : isPlain c = true := by
        rw [isPlain, hc, decide_eq_true hquote, decide_eq_true hback]
        rfl
      rw [Json.escape_plain c hplain, shield, decide_eq_false hback, decide_eq_false hquote]
      rfl

theorem quoted_eq (s : String) (hs : Json.Printed s) : quoted s = Json.quoted s := by
  rw [← String.toList_inj, toList_quoted, Json.toList_quoted,
    List.flatMap_congr fun c hc => shield_eq c (hs c hc)]

variable (e : Entry) (seq timestampUs : Nat)

/-- The line of an entry with a legible context is the object that it is meant
    to be. -/
theorem line_eq_render (h : e.Legible) :
    e.line seq timestampUs = (e.toJson seq timestampUs).render := by
  have hcontext : (e.context.map fun c => Json.quoted "context" ++ ":" ++ quoted c) =
      (e.context.map Json.string).map fun v => Json.quoted "context" ++ ":" ++ v.render := by
    rw [Option.map_map]
    cases hc : e.context with
    | none => rfl
    | some c => rw [Option.map_some, quoted_eq c (h c hc)]; rfl
  rw [line_eq, hcontext, toJson, slots, Json.present_append, Json.render,
    Json.renderFields_append, renderFields_present_cons]

/-- A control character in a context is refused. -/
theorem run_shield (acc : List Char) (st : List Json.Frame) (cs rest : List Char)
    (h : ∃ c ∈ cs, isControl c = true) :
    Json.run ⟨.text acc, st⟩ (cs.flatMap shield ++ rest) = none := by
  induction cs generalizing acc with
  | nil =>
      rcases h with ⟨c, hc, _⟩
      exact absurd hc List.not_mem_nil
  | cons c cs ih =>
      rw [List.flatMap_cons, List.append_assoc]
      cases hc : isControl c with
      | true =>
          have hquote : c ≠ '"' := Json.ne_of_isControl c '"' hc rfl
          have hback : c ≠ '\\' := Json.ne_of_isControl c '\\' hc rfl
          have hself : shield c = [c] := by
            rw [shield, decide_eq_false hback, decide_eq_false hquote]
            rfl
          rw [hself]
          exact Json.run_control acc st c _ hc
      | false =>
          have hrest : ∃ c ∈ cs, isControl c = true := by
            rcases h with ⟨x, hx, hcontrol⟩
            rcases List.mem_cons.mp hx with rfl | hx
            · rw [hc] at hcontrol
              exact absurd hcontrol Bool.false_ne_true
            · exact ⟨x, hx, hcontrol⟩
          rw [shield_eq c hc, Json.run_append, Json.run_escape, Option.bind_some]
          exact ih (acc ++ [c]) hrest

-- The characters of a line up to the end of its context.
theorem toList_line (c : String) (hc : e.context = some c) :
    ∃ rest, (e.line seq timestampUs).toList = '\x7b' ::
      ((String.intercalate "," (Json.renderFields
        (Json.present (e.slotsBefore seq timestampUs)))).toList ++
          ',' :: ((Json.quoted "context").toList ++ ':' :: '"' ::
            (c.toList.flatMap shield ++ rest))) := by
  have hfront : Json.renderFields (Json.present (e.slotsBefore seq timestampUs)) ≠ [] :=
    List.cons_ne_nil _ _
  have hbehind : Json.renderFields (Json.present e.slotsBehind) ≠ [] := List.cons_ne_nil _ _
  refine ⟨'"' :: (",".toList ++ (String.intercalate ","
    (Json.renderFields (Json.present e.slotsBehind))).toList ++ "\x7d".toList), ?_⟩
  rw [line_eq, hc, Option.map_some, Option.toList_some, List.singleton_append,
    String.intercalate_append_of_ne_nil hfront (List.cons_ne_nil _ _),
    String.intercalate_cons_of_ne_nil hbehind]
  simp only [String.toList_append, List.append_assoc, toList_quoted, List.cons_append]
  rfl

/-- A line whose context has a control character is no JSON text. -/
theorem read?_line_of_not_legible (h : ¬ e.Legible) :
    Json.read? (e.line seq timestampUs).toList = none := by
  have hfound : ∃ c, e.context = some c ∧ ∃ x ∈ c.toList, isControl x = true := by
    by_contra hnone
    refine h fun c hc x hx => Bool.not_eq_true _ ▸ fun hcontrol => ?_
    exact hnone ⟨c, hc, x, hx, hcontrol⟩
  rcases hfound with ⟨c, hc, hcontrol⟩
  rcases e.toList_line seq timestampUs c hc with ⟨rest, hline⟩
  have hbefore : Json.present (e.slotsBefore seq timestampUs) ≠ [] := List.cons_ne_nil _ _
  have hopen : ∀ cs, Json.run ⟨.value, []⟩ ('\x7b' :: cs) = Json.run ⟨.name, [.name []]⟩ cs :=
    fun _ => rfl
  have hcolon : ∀ before name cs, Json.run ⟨.colon, [.field before name]⟩ (':' :: '"' :: cs) =
    Json.run ⟨.text [], [.field before name]⟩ cs := fun _ _ _ => rfl
  -- All fields in front of the context are read, and then its beginning.
  rw [hline, Json.read?, hopen, Json.run_fields_comma _ hbefore, Json.run_append,
    Json.run_quoted_name, Option.bind_some, hcolon, run_shield [] _ c.toList rest hcontrol,
    Option.bind_none]

/-- A line is read back if and only if the context is legible. -/
theorem read?_line_iff : Reading.read? (e.line seq timestampUs).toList =
    some ⟨seq, timestampUs, e, e.checksum⟩ ↔ e.Legible := by
  constructor
  · intro hread
    by_contra h
    rw [Reading.read?, read?_line_of_not_legible e seq timestampUs h] at hread
    exact absurd hread.symm (Option.some_ne_none _)
  · intro h
    rw [Reading.read?, line_eq_render e seq timestampUs h, Json.read?_render, Option.bind_some,
      ofJson_toJson]

theorem toList_line_ne_nil : (e.line seq timestampUs).toList ≠ [] := by
  rw [line_eq, String.toList_append, String.toList_append]
  exact List.cons_ne_nil _ _

-- A text without control characters has no line breaks.
theorem count_printed (s : String) (hs : Json.Printed s) : s.toList.count '\n' = 0 :=
  List.count_eq_zero.mpr fun hmem => absurd (hs _ hmem) (by decide)

theorem count_renderFields (fields : List (String × Json)) :
    (((Json.renderFields fields).map String.toList).map (List.count '\n')).sum = 0 := by
  refine List.sum_eq_zero_iff_forall_eq_nat.mpr fun k hk => ?_
  rw [List.map_map, List.mem_map] at hk
  rcases hk with ⟨s, hs, rfl⟩
  exact count_printed s (Json.printed_renderFields fields s hs)

theorem count_quoted (s : String) : (quoted s).toList.count '\n' = s.toList.count '\n' := by
  have hshield : ∀ cs : List Char, (cs.flatMap shield).count '\n' = cs.count '\n' := by
    intro cs
    induction cs with
    | nil => rfl
    | cons c cs ih =>
        have hself : (shield c).count '\n' = [c].count '\n' := by
          unfold shield
          split
          · rw [List.count_cons_of_ne (by decide)]
          · rfl
        rw [List.flatMap_cons, List.count_append, ih, hself, ← List.count_append]
        rfl
  rw [toList_quoted, List.count_cons_of_ne (by decide), List.count_append, hshield]
  rfl

/-- The line breaks of a line are those of the context. -/
theorem count_line : (e.line seq timestampUs).toList.count '\n' =
    (e.context.getD "").toList.count '\n' := by
  have hcontext : (((e.context.map fun c => Json.quoted "context" ++ ":" ++ quoted c).toList.map
      String.toList).map (List.count '\n')).sum = (e.context.getD "").toList.count '\n' := by
    cases e.context with
    | none => rfl
    | some c =>
        have hname : (Json.quoted "context" ++ ":").toList.count '\n' = 0 :=
          count_printed _ (Json.printed_append _ _ (Json.printed_quoted _) (by decide))
        rw [Option.map_some, Option.toList_some, List.map_singleton, List.map_singleton,
          List.sum_singleton, String.toList_append, List.count_append, hname, count_quoted,
          Nat.zero_add]
        rfl
  have hcomma : ¬ ',' = '\n' := by decide
  rw [line_eq, String.toList_append, String.toList_append, List.count_append, List.count_append,
    String.toList_intercalate]
  change 0 + ([','].intercalate _).count '\n' + 0 = _
  rw [Text.count_intercalate, if_neg hcomma, Nat.mul_zero, List.map_append, List.map_append,
    List.map_append, List.map_append, List.sum_append, List.sum_append, count_renderFields,
    count_renderFields, hcontext]
  omega

end Entry

namespace Journal

/-- A journal has seen some entries: it numbers them from the first one on and
    retains the last ones. -/
structure Keeps (j : Journal) (past : List Entry) : Prop where
  entries : j.entries = (past.mapIdx Prod.mk).drop
    (if j.maxEntries = 0 then 0 else past.length - j.maxEntries)
  nextSeq : j.nextSeq = past.length

theorem keeps_empty (max : Nat) : Keeps { maxEntries := max } [] :=
  ⟨List.drop_nil.symm, rfl⟩

/-- One more entry is numbered and retained, at the cost of the oldest one if the
    journal is full. -/
theorem Keeps.record (j : Journal) (past : List Entry) (h : j.Keeps past) (e : Entry) :
    (j.record e).Keeps (past ++ [e]) := by
  have hlength : j.entries.length =
      past.length - if j.maxEntries = 0 then 0 else past.length - j.maxEntries := by
    rw [h.entries, List.length_drop, List.length_mapIdx]
  have hkept : (if 0 < j.maxEntries && j.maxEntries ≤ j.entries.length then j.entries.drop 1
      else j.entries) = (past.mapIdx Prod.mk).drop
        (if j.maxEntries = 0 then 0 else past.length + 1 - j.maxEntries) := by
    rw [hlength, h.entries]
    by_cases hmax : j.maxEntries = 0
    · simp only [hmax, if_true, Nat.lt_irrefl, decide_false, Bool.false_and, Bool.false_eq_true,
        if_false]
    · by_cases hfull : j.maxEntries ≤ past.length
      · have hcond : 0 < j.maxEntries ∧
            j.maxEntries ≤ past.length - (past.length - j.maxEntries) := by omega
        have hnext : past.length - j.maxEntries + 1 = past.length + 1 - j.maxEntries := by omega
        simp only [hmax, if_false, hcond, decide_true, Bool.and_self, if_true, List.drop_drop,
          hnext]
      · have hcond : ¬ j.maxEntries ≤ past.length - (past.length - j.maxEntries) := by omega
        have hnone : past.length + 1 - j.maxEntries = past.length - j.maxEntries := by omega
        simp only [hmax, if_false, hcond, decide_false, Bool.and_false, Bool.false_eq_true, hnone]
  refine ⟨?_, ?_⟩
  · rw [Journal.record, hkept, List.mapIdx_concat, List.length_append, List.length_singleton,
      List.drop_append_of_le_length, h.nextSeq]
    rw [List.length_mapIdx]
    by_cases hmax : j.maxEntries = 0
    · exact Nat.le_trans (Nat.le_of_eq (if_pos hmax)) (Nat.zero_le _)
    · have hle : past.length + 1 - j.maxEntries ≤ past.length := by omega
      exact Nat.le_trans (Nat.le_of_eq (if_neg hmax)) hle
  · rw [Journal.record, List.length_append, List.length_singleton, h.nextSeq]

theorem Keeps.records (es : List Entry) (j : Journal) (past : List Entry) (h : j.Keeps past) :
    (es.foldl Journal.record j).Keeps (past ++ es) := by
  induction es generalizing j past with
  | nil => rwa [List.append_nil]
  | cons e es ih =>
      rw [List.foldl_cons, ← List.singleton_append, ← List.append_assoc]
      exact ih (j.record e) (past ++ [e]) (h.record j past e)

theorem maxEntries_records (es : List Entry) (j : Journal) :
    (es.foldl Journal.record j).maxEntries = j.maxEntries := by
  induction es generalizing j with
  | nil => rfl
  | cons e es ih => exact ih (j.record e)

section Lines

variable (j : Journal) (clock : Nat → Nat)

/-- All retained entries, one on each line, with the times of a clock. -/
def linesAt : String := String.intercalate "\n" (j.entries.map fun e => e.2.line e.1 (clock e.1))

/-- What the lines are to say. -/
def readings : List Reading := j.entries.map fun e => ⟨e.1, clock e.1, e.2, e.2.checksum⟩

-- The time of an entry is derived from its number.
theorem lines_eq_linesAt : j.lines = j.linesAt timestampUs := rfl

theorem toList_linesAt : (j.linesAt clock).toList =
    ['\n'].intercalate (j.entries.map fun e => (e.2.line e.1 (clock e.1)).toList) := by
  rw [linesAt, String.toList_intercalate, List.map_map]
  rfl

/-- There is one line for each retained entry, and one more for each line break
    in a context. -/
theorem length_linesAt : (Text.lines (j.linesAt clock).toList).length = j.entries.length +
    (j.entries.map fun e => (e.2.context.getD "").toList.count '\n').sum := by
  have hcount : (j.entries.map fun e => (e.2.line e.1 (clock e.1)).toList).map (List.count '\n') =
      j.entries.map fun e => (e.2.context.getD "").toList.count '\n' := by
    rw [List.map_map]
    refine List.map_congr_left fun e _ => ?_
    rw [Function.comp_apply, Entry.count_line]
  rw [toList_linesAt, Text.length_lines, List.length_map, hcount]
  · intro l hl
    rcases List.mem_map.mp hl with ⟨e, _, rfl⟩
    exact e.2.toList_line_ne_nil e.1 (clock e.1)

theorem length_linesAt_iff : (Text.lines (j.linesAt clock).toList).length = j.entries.length ↔
    ∀ e ∈ j.entries, ∀ c ∈ e.2.context, '\n' ∉ c.toList := by
  rw [length_linesAt, Nat.add_eq_left, List.sum_eq_zero_iff_forall_eq_nat, List.forall_mem_map]
  refine forall₂_congr fun e _ => ?_
  rw [List.count_eq_zero]
  cases e.2.context with
  | none => exact ⟨fun _ c hc => absurd hc.symm (Option.some_ne_none c), fun _ => List.not_mem_nil⟩
  | some c => simp only [Option.getD_some, Option.mem_some_iff, forall_eq']

/-- Entries without line breaks are found on a line each. -/
theorem lines_linesAt (h : ∀ e ∈ j.entries, ∀ c ∈ e.2.context, '\n' ∉ c.toList) :
    Text.lines (j.linesAt clock).toList =
      j.entries.map fun e => (e.2.line e.1 (clock e.1)).toList := by
  rw [toList_linesAt, Text.lines_intercalate]
  · intro l hl
    rcases List.mem_map.mp hl with ⟨e, _, rfl⟩
    exact e.2.toList_line_ne_nil e.1 (clock e.1)
  · intro l hl
    rcases List.mem_map.mp hl with ⟨e, he, rfl⟩
    rw [← List.count_eq_zero, e.2.count_line, List.count_eq_zero]
    cases hc : e.2.context with
    | none => exact List.not_mem_nil
    | some c => exact h e he c hc

/-- The lines say what was recorded if and only if all retained contexts are
    legible. With a line break in one of them there are too many lines. -/
theorem read_linesAt_iff :
    (Text.lines (j.linesAt clock).toList).map Reading.read? = (j.readings clock).map some ↔
      ∀ e ∈ j.entries, e.2.Legible := by
  have hsame : (∀ e ∈ j.entries, ∀ c ∈ e.2.context, '\n' ∉ c.toList) →
      ((Text.lines (j.linesAt clock).toList).map Reading.read? = (j.readings clock).map some ↔
        ∀ e ∈ j.entries, e.2.Legible) := by
    intro hbreaks
    rw [lines_linesAt j clock hbreaks, readings, List.map_map, List.map_map, List.map_inj_left]
    refine forall₂_congr fun e _ => ?_
    rw [Function.comp_apply, Function.comp_apply, Entry.read?_line_iff]
  constructor
  · intro hread
    have hlength := congrArg List.length hread
    rw [List.length_map, List.length_map, readings, List.length_map] at hlength
    exact (hsame ((length_linesAt_iff j clock).mp hlength)).mp hread
  · intro hlegible
    refine (hsame fun e he c hc hmem => ?_).mpr hlegible
    exact absurd (hlegible e he c hc _ hmem) (by decide)

end Lines

/-- A journal retains the last entries that were recorded, under their numbers.
    It has one line for each of them if and only if no context has a line break,
    and all of them are read back from these lines if and only if no context has
    a control character, whatever clock the times are from. -/
theorem readable_iff (es : List Entry) (max : Nat) (clock : Nat → Nat) :
    let j := es.foldl Journal.record { maxEntries := max }
    j.entries = (es.mapIdx Prod.mk).drop (if max = 0 then 0 else es.length - max) ∧
      j.lines = j.linesAt timestampUs ∧
      ((Text.lines (j.linesAt clock).toList).length = j.entries.length ↔
        ∀ e ∈ j.entries, ∀ c ∈ e.2.context, '\n' ∉ c.toList) ∧
      ((Text.lines (j.linesAt clock).toList).map Reading.read? = (j.readings clock).map some ↔
        ∀ e ∈ j.entries, e.2.Legible) := by
  have hkeeps := (keeps_empty max).records es _ []
  have hmax := maxEntries_records es { maxEntries := max }
  refine ⟨?_, lines_eq_linesAt _, length_linesAt_iff _ clock, read_linesAt_iff _ clock⟩
  have hentries := hkeeps.entries
  rw [hmax] at hentries
  exact hentries

/-- A context with a line break, as in this entry, is not read back. -/
theorem not_readable_line_break : ¬ ∀ (es : List Entry) (max : Nat),
    let j := es.foldl Journal.record { maxEntries := max }
    (Text.lines j.lines.toList).length = j.entries.length ∧
      (Text.lines j.lines.toList).map Reading.read? = (j.readings timestampUs).map some := by
  intro hall
  have hlines := (hall [{ kind := .staleHandle, context := some "two\nlines" }] 0).1
  exact absurd hlines (by decide +kernel)

end Journal

end TreeWatch
