import Lowering.Command

/-!
# The program

Reads the command line, prints the output of the command to standard output, and
records and faults to standard error.
-/

namespace Lowering

/-- How the program is used. -/
def usage : List String :=
  ["Run the back end of a tree-code compiler over a sample function",
   "",
   "Usage: lowering [-v N] canon SAMPLE",
   "       lowering [-v N] quads SAMPLE",
   "       lowering [-v N] trace SAMPLE",
   "       lowering [-v N] alloc SAMPLE [-r N]",
   "",
   "Samples: nested-calls, branches, pressure"]

/-- Print a report. -/
def printReport (report : Command.Report) : IO Unit := do
  for r in report.records do
    IO.eprintln r.text
  match report.output with
  | .ok lines =>
    for line in lines do
      IO.println line
  | .error fault => IO.eprintln (Command.errorLine fault)

end Lowering

open Lowering in
/-- The program. -/
def main (args : List String) : IO UInt32 := do
  let response := Command.respond args
  match response with
  | .ran report => printReport report
  | .help =>
    for line in usage do
      IO.println line
  | .refused =>
    for line in usage do
      IO.eprintln line
  pure response.exitCode.toUInt32
