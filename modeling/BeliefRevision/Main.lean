import BeliefRevision.CommandLine

/-!
# The program

Reads the belief file named by the last argument, writes the report of the run and exits with its
code.
-/

open BeliefRevision

/-- The bytes of a file, unless it cannot be opened. -/
def readFileBytes (path : String) : IO (Option (List UInt8)) := do
  try
    let bytes ← IO.FS.readBinFile path
    return some bytes.data.toList
  catch _ => return none

def main (arguments : List String) : IO UInt32 := do
  let file ← match CommandLine.path? arguments with
    | some path => readFileBytes path
    | none => pure none
  let report := CommandLine.run arguments file
  for line in report.lines do
    IO.println line
  return report.exitCode
