import RequestQuery.CommandLine.Run

/-!
# The program

The command line on the files and streams of the machine.
-/

namespace RequestQuery.CommandLine

/-- The host of the machine. Anything that goes wrong with a file means that it cannot be used. -/
def machineHost : Host IO where
  readFile := fun path => do
    try
      pure (some (← IO.FS.readFile path))
    catch _ => pure none
  readInput := do
    let input ← IO.getStdin
    if ← input.isTty then pure none else pure (some (← input.readToEnd))
  writeFile := fun path text => do
    try
      IO.FS.writeFile path text
      pure true
    catch _ => pure false
  print := fun line => IO.println line
  complain := fun line => IO.eprintln line

end RequestQuery.CommandLine

open RequestQuery.CommandLine in
def main (arguments : List String) : IO UInt32 := do
  let terminal ← (← IO.getStderr).isTty
  let code ← run machineHost terminal arguments
  if code = 2 then IO.eprintln "Usage: [OPTIONS] <select|filter|order|request> [ARGUMENTS]"
  pure (UInt32.ofNat code)
