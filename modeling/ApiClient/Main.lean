import ApiClient.CommandLine.Run

/-!
# The program

Carries out a command line on real files.
-/

namespace ApiClient

def succeeds (step : IO Unit) : IO Bool := do
  try
    step
    return true
  catch _ => return false

instance : FileSystem IO where
  has path := succeeds do
    let _ ← IO.FS.Handle.mk path .read
  read? path := do
    try
      return some (← IO.FS.readFile path)
    catch _ => return none
  createDirectory path :=
    if (Path.obstacle? path).isSome then return false else succeeds (IO.FS.createDirAll path)
  write path text := do
    try
      IO.FS.writeFile path text
      return none
    catch e => return some (toString e)

end ApiClient

def main (arguments : List String) : IO UInt32 := do
  let outcome ← (ApiClient.CommandLine.run arguments : IO ApiClient.CommandLine.Outcome)
  (← IO.getStdout).putStr outcome.output
  (← IO.getStderr).putStr outcome.messages
  return outcome.exitCode.toUInt32
