import LazyTree.CommandLine.Run
import LazyTree.Host.Manifest

/-!
The program. It reads the description of a disk from standard input and shows a directory of it.
-/

open LazyTree in
def main (arguments : List String) : IO UInt32 := do
  let description ← (← IO.getStdin).readToEnd
  let places := Settings.Places.ofEnvironment (← IO.getEnv "DTREE_CONFIG")
    (← IO.getEnv "XDG_CONFIG_HOME") (← IO.getEnv "HOME")
  let outcome := CommandLine.run arguments places (Host.Manifest.disk description)
  IO.print outcome.output
  if let some line := outcome.errorLine then
    IO.eprintln line
  return outcome.code.toUInt32
