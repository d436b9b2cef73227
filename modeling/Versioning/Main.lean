import Versioning.CommandLine.Run

/-! The command line program. -/

namespace Versioning.CommandLine

/-- How the program is used. -/
def usage : String := unlines [
  "usage: [--log-level LEVEL] [--log-file PATH] COMMAND ...",
  "",
  "  parse URI                                 read a range from a URI",
  "  native TEXT [--scheme SCHEME]             show a native range as a URI",
  "  contains RANGE VERSION [--scheme SCHEME]  test whether a range holds a version",
  "  compare A B                               compare two versions",
  "  normalize VERSION                         show a version with all its numbers"]

end Versioning.CommandLine

open Versioning.CommandLine in
/-- Runs the command that the words ask for. -/
def main (words : List String) : IO UInt32 := do
  let outcome := run words
  match outcome with
  | .shownUsage 0 => IO.print usage
  | .shownUsage _ => IO.eprint usage
  | .finished _ output errors =>
    IO.print output
    IO.eprint errors
  return outcome.status.toUInt32
