import DerivedStats.Command.Arguments

/-!
# The program

Reads the values file, if the command line names one, and prints what the command answers.
-/

open DerivedStats.Command

/-- The content of a file, or the words of the system for why it cannot be read. -/
def fileContent (path : String) : IO (Except String String) := do
  match ← (IO.FS.readFile path).toBaseIO with
  | .ok content => return .ok content
  | .error e => return .error (toString e)

/-- Carries out the command line. -/
def exitOf (words : List String) : IO Exit := do
  match Invocation.ofWords words with
  | .error stop => return stop.exit "derivedstats"
  | .ok i =>
    let content ← match i.valuesPath with
      | some path => fileContent path
      | none => pure (.ok "")
    let terminal ← (← IO.getStderr).isTty
    return i.exit terminal fun _ => content

def main (words : List String) : IO UInt32 := do
  let exit ← exitOf words
  (← IO.getStdout).putStr exit.output
  (← IO.getStderr).putStr exit.errors
  return exit.code.toUInt32
