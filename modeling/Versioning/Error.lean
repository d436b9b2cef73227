import Versioning.Text.Quoted

/-! Why a text names no version, no constraint or no range, and how that is said. -/

namespace Versioning

open Text (quote quote?)

inductive ConstraintFault where
  /-- Nothing stands between two separators of a list. -/
  | blank
  /-- No version follows the operator. -/
  | noVersion (constraint : String)
  | unknownOperator (operator : String)
deriving DecidableEq

def ConstraintFault.message : ConstraintFault → String
  | blank => "Empty constraint in constraint list"
  | noVersion constraint => s!"Invalid constraint format: {quote constraint}"
  | unknownOperator operator => s!"Invalid operator: {quote operator}"

inductive NpmFault where
  /-- A lone dash does not stand between two words. -/
  | hyphen (comparators : String)
  /-- Two operators stand in a row. -/
  | operators (comparators : String)
  | danglingOperator (comparators : String)
  /-- The comparator points to a place, not to versions. -/
  | location (comparator : String)
deriving DecidableEq

def NpmFault.message : NpmFault → String
  | hyphen comparators => s!"Invalid npm hyphen range: {quote comparators}"
  | operators comparators => s!"Invalid npm range format: {quote comparators}"
  | danglingOperator comparators =>
    s!"Operator without a version in npm range: {quote comparators}"
  | location comparator => s!"Invalid npm range format: {quote comparator}"

inductive GemFault where
  /-- Nothing stands between two commas. -/
  | blank (requirements : String)
  /-- No version follows the pessimistic operator. -/
  | noVersion
deriving DecidableEq

def GemFault.message : GemFault → String
  | blank requirements => s!"Empty requirement in gem range: {quote requirements}"
  | noVersion => "Pessimistic operator without a version"

inductive BracketFault where
  | blank
  /-- Neither a group nor a version. -/
  | form (text : String)
  | expectedBracket (offset : Nat) (text : String)
  | expectedComma (offset : Nat) (text : String)
  | nested (offset : Nat) (text : String)
  | unclosed (text : String)
  | trailingComma (text : String)
  /-- A single version stands between brackets that are not both square. -/
  | mismatched (group : String)
  | tooManyBounds (group : String)
  | noBounds (group : String)
  /-- A side without a version has a square bracket. -/
  | closedOpenSide (group : String)
  /-- The lower bound lies above the upper one. -/
  | noVersion (group : String)
deriving DecidableEq

/-- The fault in words, for the ecosystem of the given name. -/
def BracketFault.message (ecosystem : String) : BracketFault → String
  | blank => s!"Empty {ecosystem} range"
  | form text => s!"Invalid {ecosystem} range: {quote text}"
  | expectedBracket offset text => s!"Expected '[' or '(' at offset {offset} in {quote text}"
  | expectedComma offset text => s!"Expected ',' at offset {offset} in {quote text}"
  | nested offset text => s!"Nested bracket at offset {offset} in {quote text}"
  | unclosed text => s!"Unclosed bracket in {quote text}"
  | trailingComma text => s!"Trailing ',' in {quote text}"
  | mismatched group => s!"Malformed {ecosystem} range: mismatched brackets in {quote group}"
  | tooManyBounds group => s!"Too many bounds in {ecosystem} range {quote group}"
  | noBounds group => s!"{ecosystem} range {quote group} has no bounds"
  | closedOpenSide group =>
    s!"Malformed {ecosystem} range: an open side needs an exclusive bracket in {quote group}"
  | noVersion group => s!"{ecosystem} range {quote group} matches no version"

/-- Why a text could not be read; `none` stands for a text that was not given. -/
inductive FormatError where
  | version (text : Option String)
  | constraint (fault : ConstraintFault)
  | uri (text : Option String)
  | npm (fault : NpmFault)
  | gem (fault : GemFault)
  /-- A clause of a specifier set is none. -/
  | specifier (clause set : String)
  | bracket (ecosystem : String) (fault : BracketFault)
  /-- A native range holds a constraint or version that could not be read. -/
  | native (scheme range : String) (reason : FormatError)
deriving DecidableEq

def FormatError.message : FormatError → String
  | version text => s!"Invalid version format: {quote? text}"
  | constraint fault => fault.message
  | uri text => s!"Invalid vers URI format: {quote? text}"
  | npm fault => fault.message
  | gem fault => fault.message
  | specifier clause set => s!"Invalid PEP 440 specifier {quote clause} in {quote set}"
  | bracket ecosystem fault => fault.message ecosystem
  | native scheme range reason => s!"Invalid {scheme} range {quote range}: {reason.message}"

/-- What a text was read as when it could not be read. -/
inductive FormatError.Kind where
  | version
  | constraint
  | range
deriving DecidableEq

def FormatError.kind : FormatError → Kind
  | version _ => .version
  | constraint _ => .constraint
  | _ => .range

/-- What lies under an error. -/
inductive FormatError.Cause where
  /-- The clause does not fit the grammar of specifiers. -/
  | specifierGrammar
  | error (kind : Kind)
deriving DecidableEq

def FormatError.cause? : FormatError → Option Cause
  | specifier _ _ => some .specifierGrammar
  | native _ _ reason => some (.error reason.kind)
  | _ => none

end Versioning
