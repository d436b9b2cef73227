import Versioning.Text.Blank
import Versioning.Text.Split

/-! The clauses of version specifiers: an operator and a version.  What clauses there are is left
open: a reader tells, and `IsLawful` says what it is relied on for. -/

namespace Versioning

structure Specifier where
  operator : String
  version : List Char
deriving DecidableEq

namespace Specifier

open Text

/-- The operators of clauses; one that another starts with comes after it. -/
def operators : List String := ["===", "~=", "==", "!=", "<=", ">=", "<", ">"]

/-- The longest operator that the text starts with, and the text after it without blanks at its
ends. -/
def split? (text : List Char) : Option Specifier :=
  operators.findSome? fun operator =>
    (dropStart? operator.toList text).map fun rest => ⟨operator, strip rest⟩

/-- What reads clauses.  It is inferred, so that the grammars do not have to pass it on. -/
class Reader where
  /-- The specifier that the clause shows, if it is one. -/
  ofClause? : List Char → Option Specifier

/-- What a reader of clauses is relied on for. -/
structure Reader.IsLawful [Reader] : Prop where
  /-- The clause is cut behind its operator; blanks around the two parts do not count. -/
  split : ∀ clause, ∀ s ∈ ofClause? clause, split? (strip clause) = some s
  /-- Only a text that is compared as it stands may hold a comma. -/
  comma : ∀ clause, ∀ s ∈ ofClause? clause, s.operator ≠ "===" → ',' ∉ clause
  /-- What stands behind an equality may stand behind its negation. -/
  negation : ∀ text, ∀ s ∈ ofClause? ('=' :: '=' :: text), s.operator = "==" →
    (ofClause? ('!' :: '=' :: text)).isSome = true

end Specifier

end Versioning
