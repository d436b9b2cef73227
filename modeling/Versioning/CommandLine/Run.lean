import Versioning.CommandLine.Command
import Versioning.Uri

/-! What commands answer: a status, and texts for the two streams. -/

namespace Versioning.CommandLine

inductive Outcome where
  /-- No command was run; the program shows how it is used. -/
  | shownUsage (status : Nat)
  /-- A command was run, or failed before it could print anything. -/
  | finished (status : Nat) (output errors : String)
deriving DecidableEq

/-- The status that the run ends with: zero; one where a range does not hold a version or an option
has no value; two where a text could not be read or there was no command to run. -/
def Outcome.status : Outcome → Nat
  | shownUsage status => status
  | finished status _ _ => status

/-- The scheme that a URI names; the default scheme where there is none. -/
def schemeOf (uri : String) : String :=
  match Text.dropStart? Range.uriStart.toList uri.toList with
  | some rest => String.ofList (Text.cutAt '/' rest).1
  | none => defaultScheme

/-- The lines that the command prints, and whether its answer is yes. -/
def Command.answer [Specifier.Reader] : Command → Except FormatError (List String × Bool)
  | parse uri => do
    let range ← (Range.parseUri uri).run
    return ([range.render, range.toUri (schemeOf uri)], true)
  | native text scheme => do
    let range ← (Range.parseNative text scheme).run
    return ([range.toUri scheme], true)
  | contains range version scheme => do
    let holds ← Range.satisfiedBy version range scheme
    return ([if holds then "yes" else "no"], holds)
  | compare a b => do
    let order ← Version.compareTexts a b
    return ([match order with | .lt => "-1" | .eq => "0" | .gt => "1"], true)
  | normalize version => do
    return ([(← Version.parse version).normalize], true)

/-- Lines, each with its end. -/
def unlines (lines : List String) : String := String.join (lines.map (· ++ "\n"))

def Command.run [Specifier.Reader] (c : Command) : Outcome :=
  match c.answer with
  | .ok (lines, yes) => .finished (if yes then 0 else 1) (unlines lines) ""
  | .error e => .finished 2 "" (unlines ["error: " ++ e.message])

def run [Specifier.Reader] (words : List String) : Outcome :=
  match Command.read words with
  | .ok command => command.run
  | .error .help => .shownUsage 0
  | .error .usage => .shownUsage 2
  | .error .noValue => .finished 1 "" ""

end Versioning.CommandLine
