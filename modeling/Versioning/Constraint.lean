import Versioning.Range.Basic

/-! Constraints: an operator and the text of the version that it compares with. -/

namespace Versioning

/-- How a version compares with the one of a constraint. -/
inductive Operator where
  | equal
  | notEqual
  | less
  | lessEqual
  | greater
  | greaterEqual
deriving DecidableEq

namespace Operator

def symbol : Operator → String
  | equal => "="
  | notEqual => "!="
  | less => "<"
  | lessEqual => "<="
  | greater => ">"
  | greaterEqual => ">="

/-- All operators; one that another starts with comes after it. -/
def all : List Operator := [notEqual, greaterEqual, lessEqual, less, greater, equal]

def ofSymbol (text : String) : Except FormatError Operator :=
  match all.find? (·.symbol == text) with
  | some op => .ok op
  | none => .error (.constraint (.unknownOperator text))

/-- The longest operator that the text starts with, and the text after it. -/
def split? (text : List Char) : Option (Operator × List Char) :=
  all.findSome? fun op => (Text.dropStart? op.symbol.toList text).map (op, ·)

/-- Whether the operator holds of a version that compares so with that of the constraint. -/
def holds : Operator → Ordering → Bool
  | equal, o => o.isEq
  | notEqual, o => o.isNe
  | less, o => o.isLT
  | lessEqual, o => o.isLE
  | greater, o => o.isGT
  | greaterEqual, o => o.isGE

/-- The versions that the operator holds of, unless it takes a single one out. -/
def interval? (op : Operator) (v : Version) : Option Interval :=
  match op with
  | equal => some (.exact v)
  | notEqual => none
  | less => some (.below v false)
  | lessEqual => some (.below v true)
  | greater => some (.above v false)
  | greaterEqual => some (.above v true)

end Operator

structure Constraint where
  operator : Operator
  version : String
deriving DecidableEq

namespace Constraint

/-- The operator that the text starts with, and what follows it without blanks at its ends; a text
without an operator asks for just that version. -/
def parse (text : String) : Except FormatError Constraint :=
  match Operator.split? text.toList with
  | some (op, rest) =>
    let version := Text.strip rest
    if version.isEmpty then .error (.constraint (.noVersion text))
    else .ok ⟨op, String.ofList version⟩
  | none => .ok ⟨.equal, text⟩

def render (c : Constraint) : String := c.operator.symbol ++ c.version

def isExclusion (c : Constraint) : Bool := c.operator = .notEqual

/-- The versions that the constraint admits, unless it takes a single one out. -/
def interval? (c : Constraint) : Except FormatError (Option Interval) :=
  if c.isExclusion then .ok none else (Version.parse c.version).map c.operator.interval?

/-- Whether the version that the text shows satisfies the constraint. -/
def satisfiedBy (c : Constraint) (text : String) : Except FormatError Bool := do
  let v ← Version.parse text
  let limit ← Version.parse c.version
  return c.operator.holds (compare v limit)

end Constraint

end Versioning
