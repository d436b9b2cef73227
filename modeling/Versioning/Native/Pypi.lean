import Versioning.Native.Specifier
import Versioning.Range.Constraints
import Versioning.Range.Series

/-! Specifier sets: clauses between commas, all of which a version has to meet. -/

namespace Versioning.Pypi

open Text

/-- The clause with the equality that a version without a comparison stands for. -/
def complete (clause : List Char) : List Char :=
  let startsWithDigit := fun (text : List Char) => text.head?.any isDigitLike
  match clause with
  | 'v' :: rest | 'V' :: rest => if startsWithDigit rest then '=' :: '=' :: clause else clause
  | _ => if startsWithDigit clause then '=' :: '=' :: clause else clause

def specifier [Specifier.Reader] (set : String) (clause : List Char) :
    Except FormatError Specifier :=
  match Specifier.Reader.ofClause? (complete clause) with
  | some s => .ok s
  | none => .error (.specifier (String.ofList (complete clause)) set)

def dropMark : List Char → List Char
  | 'v' :: rest | 'V' :: rest => rest
  | text => text

/-- The text before a wildcard at its end. -/
def wildcardStart? (text : List Char) : Option (List Char) :=
  (dropStart? ['*', '.'] text.reverse).map List.reverse

/-- The versions from the given one up to where the last but one of its numbers changes. -/
def compatible (v : Version) : Range := .series v (if v.patch.isSome then .minor else .major)

/-- The versions from the given one up to where the last of its numbers changes. -/
def prefixed (v : Version) : Range :=
  .series v (if v.patch.isSome then .patch else if v.minor.isSome then .minor else .major)

/-- What a clause adds to its set. -/
inductive Clause where
  /-- A constraint, for the list of all constraints of the set. -/
  | constraint (constraint : Constraint)
  /-- A range that the set is narrowed to. -/
  | range (range : Range)

def Clause.constraint? : Clause → Option Constraint
  | constraint c => some c
  | range _ => none

def Clause.range? : Clause → Option Range
  | constraint _ => none
  | range r => some r

/-- What the specifier adds to its set.  An operator that stands for no series and no equality is one
of constraints; a lawful reader gives no other. -/
def Clause.ofSpecifier (s : Specifier) : Lookup Clause :=
  let text := dropMark s.version
  match s.operator, wildcardStart? text with
  | "~=", _ => do return .range (compatible (← Lookup.version text))
  | "==", some start => do return .range (prefixed (← Lookup.version start))
  | "!=", some start => do return .range (prefixed (← Lookup.version start)).compl
  | "==", none | "===", _ => return .constraint ⟨.equal, String.ofList text⟩
  | operator, _ => do
    return .constraint ⟨← Lookup.ofExcept (Operator.ofSymbol operator), String.ofList text⟩

/-- What a piece between the commas of the set adds to it. -/
def readClause [Specifier.Reader] (set : String) (piece : List Char) : Lookup Clause := do
  Clause.ofSpecifier (← Lookup.ofExcept (specifier set (strip piece)))

/-- The range of a specifier set; a blank one admits all versions. -/
def parse [Specifier.Reader] (text : String) : Lookup Range :=
  if (strip text.toList).isEmpty then pure .unbounded
  else do
    let clauses ← (text.toList.splitOn ',').mapM (readClause text)
    let constraints := clauses.filterMap Clause.constraint?
    let start ← if constraints.isEmpty then pure .unbounded else Range.build constraints
    return (clauses.filterMap Clause.range?).foldl .inter start

end Versioning.Pypi
