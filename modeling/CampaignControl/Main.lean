import CampaignControl.CommandLine

/-!
# The program
-/

open CampaignControl CommandLine

/-- The files and the standard output of the process. -/
def processHost : Host IO where
  readFile path := do
    try
      return String.fromUTF8? (← IO.FS.readBinFile path)
    catch _ => return none
  writeFile path text := do
    try
      IO.FS.writeFile path text
      return true
    catch _ => return false
  print := IO.print

/-- The variables that the program reads. -/
def processEnvironment : IO Environment := do
  let names := completionVariable :: Flag.all.map Flag.variableName
  names.filterMapM fun name => return (← IO.getEnv name).map (name, ·)

def main (arguments : List String) : IO UInt32 := do
  let invocation := Invocation.ofArguments arguments (← processEnvironment)
  let exit ← invocation.perform processHost
  return exit.status.toUInt32
