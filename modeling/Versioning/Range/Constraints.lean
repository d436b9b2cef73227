import Versioning.Constraint
import Versioning.Lookup

/-! Ranges made of constraints, and lists of constraints between bars. -/

namespace Versioning

/-- What the operators admit of their versions, merged; then the excluded versions are taken out.
With exclusions alone, they are taken out of the range of all versions. -/
def Range.ofConstraints (constraints : List (Operator × Version)) : Range :=
  let intervals := constraints.filterMap fun (op, v) => op.interval? v
  let exclusions := constraints.filterMap fun (op, v) => if op = .notEqual then some v else none
  let start :=
    if !intervals.isEmpty then ofIntervals intervals
    else if exclusions.isEmpty then empty
    else unbounded
  exclusions.foldl exclude start

/-- The operator of the constraint and its version. -/
def Constraint.resolve (c : Constraint) : Lookup (Operator × Version) := do
  return (c.operator, ← Lookup.version c.version.toList)

/-- The range of the constraints, whose versions are looked up in order. -/
def Range.build (constraints : List Constraint) : Lookup Range := do
  return ofConstraints (← constraints.mapM Constraint.resolve)

/-- The constraint of a piece of a list; blanks at its ends do not count. -/
def Constraint.parsePiece (piece : List Char) : Except FormatError Constraint :=
  let text := Text.strip piece
  if text.isEmpty then .error (.constraint .blank) else parse (String.ofList text)

/-- The range of the constraints in the pieces.  All constraints are read before any version. -/
def Range.ofPieces (pieces : List (List Char)) : Lookup Range := do
  build (← Lookup.ofExcept (pieces.mapM Constraint.parsePiece))

/-- The range of the constraints between bars. -/
def Range.ofConstraintList (text : List Char) : Lookup Range := ofPieces (text.splitOn '|')

end Versioning
