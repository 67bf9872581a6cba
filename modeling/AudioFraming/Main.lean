import AudioFraming.Demo

/-!
# The command line

Prints the report of the demonstration run.
-/

def main : IO UInt32 := do
  let report := AudioFraming.Demo.report
  for line in report.out do
    IO.println line
  for line in report.err do
    IO.eprintln line
  return report.code.toUInt32
