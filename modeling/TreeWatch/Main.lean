import TreeWatch.CommandLine

/-!
# The program

Reads the variables it looks at, plays the rehearsal, and prints. Without a
seed the clock gives one.
-/

open TreeWatch

/-- Run the program. A rehearsal that ends in a fault has exit code 101. -/
def main : IO UInt32 := do
  let mut found : List (String × String) := []
  for name in CommandLine.watchedNames do
    match ← IO.getEnv name with
    | some value => found := (name, value) :: found
    | none => pure ()
  let bound := found
  let seed := (← IO.monoNanosNow).toUInt64
  match CommandLine.respond (fun name => bound.lookup name) seed with
  | .error fault =>
    IO.eprintln fault.message
    return 101
  | .ok response =>
    IO.println response.output.text
    match response.journal with
    | some text => IO.eprintln text
    | none => pure ()
    return response.exitCode.toUInt32
