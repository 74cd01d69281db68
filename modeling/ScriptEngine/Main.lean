import ScriptEngine.CommandLine.Outcome

/-!
# The command-line program

Reads the files that the arguments name and prints what the command says.
-/

namespace ScriptEngine.CommandLine

/-- The environment variable that names the configuration file if the arguments do not. -/
def configVariable : String := "LODESTAR_CONFIG"

def readText (file : String) : IO (Option String) := do
  try
    return some (← IO.FS.readFile file)
  catch _ => return none

def readFiles (names : List String) : IO (List (String × String)) := do
  let texts ← names.mapM fun name => return (name, ← readText name)
  return texts.filterMap fun (name, text) => text.map (name, ·)

end ScriptEngine.CommandLine

open ScriptEngine.CommandLine in
def main (args : List String) : IO UInt32 := do
  let configFile ← IO.getEnv configVariable
  let outcome ← match parse? args configFile with
    | some i => do
      let files ← readFiles i.files
      pure (i.run fun name => files.lookup name)
    | none => pure .usage
  IO.print outcome.out
  IO.eprint outcome.err
  return UInt32.ofNat outcome.code
