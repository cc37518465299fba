import TreeWatch.Rehearsal

/-!
# The command line

The program plays one rehearsal and prints what it showed. Everything it is
told comes from named variables; one that cannot be read is ignored.

## Main definitions

* `CommandLine.rehearsal`: The rehearsal that variables ask for.
* `Response`: What the program prints, and its exit code.
* `CommandLine.respond`: The response to variables.
-/

namespace TreeWatch

/-- What is printed about a rehearsal. -/
inductive Output where
  | lines (ls : List String)
  | json (value : Json)

/-- The text of an output. -/
def Output.text : Output → String
  | lines ls => String.intercalate "\n" ls
  | json value => value.render

/-- What the program prints, with its exit code. The journal goes to the error
    output unless it is empty. -/
structure Response where
  exitCode : Nat
  output : Output
  journal : Option String

namespace CommandLine

/-- The names of the variables that are looked at. -/
def watchedNames : List String :=
  ["LIVETREE_HARNESS_MODE", "LIVETREE_HARNESS_FRAMES", "LIVETREE_HARNESS_OPS",
    "LIVETREE_HARNESS_JSON", "LIVETREE_STORM_SEED", "LIVETREE_COALESCE_MS", "LIVETREE_STRICT",
    "LIVETREE_DIAGNOSTICS", "LIVETREE_MAX_DIAGNOSTICS"]

/-- Whether a switch is on. Only some spellings of yes count. -/
def isOn (value : Option String) : Bool :=
  match value with
  | none => false
  | some v => ["1", "true", "TRUE", "True", "yes", "YES", "on", "ON"].contains (Text.trim v)

/-- The rehearsal that variables ask for. Without a readable seed the given one
    is taken. -/
def rehearsal (lookup : String → Option String) (spareSeed : UInt64) : Rehearsal :=
  let number (name : String) : Option Nat := (lookup name).bind Text.readWord
  let mode := (lookup "LIVETREE_HARNESS_MODE").map fun v => v.map Char.toLower
  let base : StormSettings := {}
  { storm := { base with
      seed := ((number "LIVETREE_STORM_SEED").map Nat.toUInt64).getD spareSeed
      frames := (number "LIVETREE_HARNESS_FRAMES").getD base.frames
      opsPerFrame := (number "LIVETREE_HARNESS_OPS").getD base.opsPerFrame }
    settings := Settings.ofVariables lookup
    mode := if mode = some "incremental" then .incremental else .periodic }

/-- A summary as lines: one with the numbers, and one for each thing that is
    wrong. -/
def summaryLines (s : Summary) : List String :=
  [s.mode.text ++ " seed=" ++ Nat.repr s.seed ++ " frames=" ++ Nat.repr s.frames ++ " ops=" ++
      Nat.repr s.opsApplied ++ " passes=" ++ Nat.repr s.passes ++ " events=" ++
      Nat.repr s.events ++ " tracked=" ++ Nat.repr s.tracked ++ " live=" ++ Nat.repr s.live ++
      " clean=" ++ (if s.isClean then "true" else "false")]
    ++ s.mismatches.map ("  mismatch: " ++ ·)
    ++ (s.invariantError.map ("  invariant: " ++ ·)).toList

/-- The response to variables. The program succeeds when the rehearsal ended
    with everything in agreement. -/
def respond (lookup : String → Option String) (spareSeed : UInt64) : Except Fault Response := do
  let summary ← (rehearsal lookup spareSeed).run
  return {
    exitCode := if summary.isClean then 0 else 1
    output :=
      if isOn (lookup "LIVETREE_HARNESS_JSON") then
        .json (.object [("scene", summary.scene), ("summary", summary.toJson)])
      else .lines (summaryLines summary)
    journal := summary.diagnostics.filter fun text => !text.isEmpty }

end CommandLine

end TreeWatch
