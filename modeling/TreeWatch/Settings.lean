import TreeWatch.Text.Number

/-!
# Settings

How a tracker behaves, with the defaults overridden by named variables. A
variable that cannot be read is ignored.

## Main definitions

* `Settings`: The settings of a tracker.
* `Settings.readFlag`: A truth value as a setting gives it.
* `Settings.ofVariables`: The settings that variables ask for.
-/

namespace TreeWatch

/-- The settings of a tracker. `coalesceDelay` is in milliseconds; a journal
    bound of 0 means no bound. -/
structure Settings where
  coalesceDelay : Nat := 500
  isStrict : Bool := true
  validateLive : Bool := true
  diagnostics : Bool := false
  maxDiagnostics : Nat := 5000
deriving DecidableEq

namespace Settings

/-- A truth value: the digits one and zero, or the words in any mixture of
    cases. -/
def readFlag (s : String) : Option Bool :=
  let word := s.map Char.toLower
  if s = "1" || word = "true" then some true
  else if s = "0" || word = "false" then some false
  else none

/-- The default settings, overridden by the variables that `lookup` finds. -/
def ofVariables (lookup : String → Option String) : Settings :=
  let base : Settings := {}
  let flag (name : String) : Option Bool := (lookup name).bind fun v => readFlag (Text.trim v)
  let number (name : String) : Option Nat := (lookup name).bind Text.readWord
  { base with
    coalesceDelay := (number "LIVETREE_COALESCE_MS").getD base.coalesceDelay
    isStrict := (flag "LIVETREE_STRICT").getD base.isStrict
    diagnostics := (flag "LIVETREE_DIAGNOSTICS").getD base.diagnostics
    maxDiagnostics := (number "LIVETREE_MAX_DIAGNOSTICS").getD base.maxDiagnostics }

end Settings

end TreeWatch
