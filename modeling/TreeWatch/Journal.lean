import TreeWatch.Handle
import TreeWatch.Text.Number
import TreeWatch.Text.Quoted

/-!
# The journal

A bounded list of what happened, written as one JSON object per line. Entries
carry a number that never repeats, a time derived from that number, and a
checksum of what they say, so that two runs can be compared line by line.

## Main definitions

* `Occurrence`: What an entry is about.
* `Entry`: One entry.
* `Entry.checksum`: The FNV-1a hash of what an entry says.
* `Entry.line`: An entry as one JSON object.
* `Journal`: The list of entries.
* `Journal.record`: Add an entry.
* `Journal.lines`: All entries, one on each line.
-/

namespace TreeWatch

/-- What an entry of the journal is about. -/
inductive Occurrence where
  | passCompleted
  | notificationApplied
  | modelReset
  | resyncRequested
  | staleHandle
  | inconsistencyRecovered
  | attributesFlushed
deriving DecidableEq

namespace Occurrence

/-- The word for an occurrence in the journal. -/
def text : Occurrence → String
  | passCompleted => "pass_completed"
  | notificationApplied => "notification_applied"
  | modelReset => "model_reset"
  | resyncRequested => "resync_requested"
  | staleHandle => "stale_handle"
  | inconsistencyRecovered => "inconsistency_recovered"
  | attributesFlushed => "attributes_flushed"

/-- The name under which an occurrence enters the checksum. -/
def debugText : Occurrence → String
  | passCompleted => "PassCompleted"
  | notificationApplied => "NotificationApplied"
  | modelReset => "ModelReset"
  | resyncRequested => "ResyncRequested"
  | staleHandle => "StaleHandle"
  | inconsistencyRecovered => "InconsistencyRecovered"
  | attributesFlushed => "AttributesFlushed"

end Occurrence

/-- What one entry says. -/
structure Entry where
  kind : Occurrence
  node : Option Handle := none
  removed : Option Nat := none
  inserted : Option Nat := none
  relocated : Option Nat := none
  deleted : Option Nat := none
  tracked : Option Nat := none
  durationUs : Option Nat := none
  context : Option String := none
deriving DecidableEq

namespace Entry

/-- The start value of the 64-bit FNV-1a hash. -/
def hashStart : UInt64 := 0xcbf29ce484222325

/-- The factor of the 64-bit FNV-1a hash. -/
def hashFactor : UInt64 := 0x100000001b3

/-- The 64-bit FNV-1a hash of some bytes. -/
def hash (bytes : List UInt8) : UInt64 :=
  bytes.foldl (fun h b => (h ^^^ b.toUInt64) * hashFactor) hashStart

/-- An optional number as it enters the checksum. -/
def debugNumber : Option Nat → String
  | none => "None"
  | some n => "Some(" ++ Nat.repr n ++ ")"

/-- All that an entry says but for how long it took, as one text. A missing
    context counts as an empty one. -/
def payload (e : Entry) : String :=
  e.kind.debugText ++ debugNumber (e.node.map fun h => h.raw.toNat) ++ debugNumber e.removed ++
    debugNumber e.inserted ++ debugNumber e.relocated ++ debugNumber e.deleted ++
    debugNumber e.tracked ++ Text.quoted (e.context.getD "")

/-- The hash of what an entry says. -/
def checksum (e : Entry) : UInt64 := hash e.payload.toUTF8.toList

/-- A text between quotes, with a backslash in front of each quote and each
    backslash. -/
def quoted (s : String) : String :=
  "\"" ++ String.ofList (s.toList.flatMap fun c =>
    if c = '\\' || c = '"' then ['\\', c] else [c]) ++ "\""

/-- A field of a line. -/
def field (name value : String) : String := "\"" ++ name ++ "\":" ++ value

/-- A field for a number, unless the number is missing. -/
def numberField (name : String) (n : Option Nat) : List String :=
  (n.map fun n => field name (Nat.repr n)).toList

/-- An entry as a JSON object, with its number and time and the fields that
    are set. -/
def line (e : Entry) (seq timestampUs : Nat) : String :=
  let fields :=
    [field "seq" (Nat.repr seq), field "ts_us" (Nat.repr timestampUs),
      field "kind" ("\"" ++ e.kind.text ++ "\"")]
    ++ (e.node.map fun h => field "node" ("\"" ++ h.text ++ "\"")).toList
    ++ numberField "removed" e.removed ++ numberField "inserted" e.inserted
    ++ numberField "relocated" e.relocated ++ numberField "deleted" e.deleted
    ++ numberField "tracked" e.tracked ++ numberField "duration_us" e.durationUs
    ++ (e.context.map fun c => field "context" (quoted c)).toList
    ++ [field "checksum" ("\"" ++ Text.paddedHex e.checksum.toNat ++ "\"")]
  "\x7b" ++ String.intercalate "," fields ++ "\x7d"

end Entry

/-- The retained entries, each with its number, oldest first. A bound of 0 means
    no bound. -/
structure Journal where
  entries : List (Nat × Entry) := []
  maxEntries : Nat := 5000
  nextSeq : Nat := 0

namespace Journal

/-- The time of an entry in microseconds: a millisecond per number, and the
    largest machine word when that does not fit. -/
def timestampUs (seq : Nat) : Nat := min (seq * 1000) (Text.wordBound - 1)

/-- Add an entry under the next number. A full journal loses its oldest
    entry. -/
def record (j : Journal) (e : Entry) : Journal :=
  let kept := if 0 < j.maxEntries && j.maxEntries ≤ j.entries.length then j.entries.drop 1
    else j.entries
  { j with entries := kept ++ [(j.nextSeq, e)], nextSeq := j.nextSeq + 1 }

/-- One retained entry as a line. -/
def lineOf (e : Nat × Entry) : String := e.2.line e.1 (timestampUs e.1)

/-- The numbers of the retained entries about one occurrence. -/
def seqsOf (j : Journal) (kind : Occurrence) : List Nat :=
  (j.entries.filter fun e => e.2.kind = kind).map Prod.fst

/-- Drop all entries and keep counting. -/
def clear (j : Journal) : Journal := { j with entries := [] }

/-- All retained entries, one on each line. -/
def lines (j : Journal) : String := String.intercalate "\n" (j.entries.map lineOf)

end Journal

end TreeWatch
