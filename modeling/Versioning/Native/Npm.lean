import Versioning.Range.Constraints
import Versioning.Range.Series

/-! Ranges of npm: sets of comparators between double bars.  A version has to meet all comparators
of one set.  A comparator is a caret or tilde range, a version with wildcards, or a constraint; two
versions with a dash between them stand for all from the one to the other. -/

namespace Versioning.Npm

open Text

/-- Operators that may stand apart from the version that they belong to. -/
def operators : List String := ["<", "<=", ">", ">=", "=", "!=", "^", "~", "~>"]

def isOperator (word : List Char) : Bool := operators.any (·.toList == word)

def locationStarts : List String := ["git+", "git://", "http://", "https://", "file:"]

def isLocation (comparator : List Char) : Bool :=
  locationStarts.any fun start => (dropStart? start.toList comparator).isSome

/-- Whether a part of a version stands for any number. -/
def isWildcard (part : List Char) : Bool := part == ['*'] || part == ['x'] || part == ['X']

/-- The text without a mark in front of its first digit. -/
def dropMark : List Char → List Char
  | mark :: digit :: rest =>
    if (mark == 'v' || mark == 'V' || mark == '=') && isDigitLike digit then digit :: rest
    else mark :: digit :: rest
  | text => text

/-- The version that the text shows, which may have a mark in front. -/
def version (text : List Char) : Lookup Version := Lookup.version (dropMark text)

/-- The versions from the given one up to where its leftmost number that is not zero changes. -/
def caret (v : Version) : Range :=
  .series v (if 0 < v.release.major then .major else if 0 < v.release.minor then .minor else .patch)

/-- The versions from the given one up to where its minor number changes, or its major number if it
has no other. -/
def tilde (v : Version) : Range := .series v (if v.minor.isSome then .minor else .major)

/-- The range of a comparator of up to three parts one of which is a wildcard: the series of the
numbers before it. -/
def wildcardRange? (comparator : List Char) : Option Range :=
  let parts := comparator.splitOn '.'
  let fixed := parts.takeWhile (!isWildcard ·)
  if 3 < parts.length || fixed.length == parts.length || !fixed.all isNumeric then none
  else
    match fixed with
    | [] => some .unbounded
    | [major] => some (.series (.ofRelease ⟨numeral major, 0, 0⟩) .major)
    | major :: minor :: _ => some (.series (.ofRelease ⟨numeral major, numeral minor, 0⟩) .minor)

/-- The range of a constraint, whose version may have a mark in front. -/
def constraint (text : List Char) : Lookup Range := do
  let c ← Lookup.ofExcept (Constraint.parse (String.ofList text))
  return .ofConstraints [(c.operator, ← version c.version.toList)]

def comparator (text : List Char) : Lookup Range :=
  if isLocation text then .fail (.npm (.location (String.ofList text)))
  else
    match text with
    | '^' :: rest => caret <$> version rest
    | '~' :: rest => tilde <$> version (rest.dropWhile (· == '>'))
    | _ =>
      match wildcardRange? text with
      | some range => pure range
      | none => constraint text

/-- The words with each operator that stands apart put in front of the next word. -/
def attachOperators (set : String) :
    (pending : Option (List Char)) → List (List Char) → Except FormatError (List (List Char))
  | none, [] => .ok []
  | some _, [] => .error (.npm (.danglingOperator set))
  | pending, word :: rest =>
    if isOperator word then
      if pending.isSome then .error (.npm (.operators set))
      else attachOperators set (some word) rest
    else (attachOperators set none rest).map ((pending.getD [] ++ word) :: ·)

/-- The versions from the one before the dash to the one after it. -/
def hyphenRange (set : String) : List (List Char) → Lookup Range
  | [lower, ['-'], upper] => do
    let min ← version lower
    let max ← version upper
    return .ofInterval ⟨{ version := min }, { version := max }⟩
  | _ => .fail (.npm (.hyphen set))

/-- The versions that all comparators admit. -/
def conjunction : List (List Char) → Lookup Range
  | [] => pure .unbounded
  | first :: rest => do
    rest.foldlM (fun range text => range.inter <$> comparator text) (← comparator first)

/-- The range of the comparators of one set; an empty set admits all versions. -/
def comparatorSet (text : List Char) : Lookup Range :=
  let set := String.ofList text
  let tokens := words text
  if tokens.contains ['-'] then hyphenRange set tokens
  else do conjunction (← Lookup.ofExcept (attachOperators set none tokens))

def parse (text : String) : Lookup Range :=
  match splitOnPair '|' (strip text.toList) with
  | [set] => comparatorSet set
  | sets => sets.foldlM (fun range set => range.union <$> comparatorSet (strip set)) .empty

end Versioning.Npm
