import Versioning.Range.Constraints

/-! Ranges in bracket notation: groups such as `[1.0,2.0)` between commas, where a square bracket
makes the version beside it part of the group; or a lone version, which stands for itself and all
above it. -/

namespace Versioning.Bracket

open Text

/-- What stands between two brackets, and which of them are square. -/
structure Group where
  lowerInclusive : Bool
  inner : List Char
  upperInclusive : Bool
deriving DecidableEq

def Group.text (g : Group) : String :=
  String.ofList ((if g.lowerInclusive then '[' else '(') :: g.inner ++
    [if g.upperInclusive then ']' else ')'])

/-- Where a reader of groups stands. -/
inductive Place where
  /-- In front of a group. -/
  | before
  /-- In a group, with what it holds so far, the last character first. -/
  | inside (lowerInclusive : Bool) (read : List Char)
  /-- After a group. -/
  | after

/-- The groups of a text from a place at the given offset on. -/
def Group.readFrom (whole : String) :
    Place → (offset : Nat) → List Char → Except BracketFault (List Group)
  | .before, _, [] => .error (.trailingComma whole)
  | .inside _ _, _, [] => .error (.unclosed whole)
  | .after, _, [] => .ok []
  | .before, offset, c :: rest =>
    if isBlank c then readFrom whole .before (offset + 1) rest
    else if c == '[' || c == '(' then readFrom whole (.inside (c == '[') []) (offset + 1) rest
    else .error (.expectedBracket offset whole)
  | .inside lowerInclusive read, offset, c :: rest =>
    if c == ']' || c == ')' then
      (readFrom whole .after (offset + 1) rest).map (⟨lowerInclusive, read.reverse, c == ']'⟩ :: ·)
    else if c == '[' || c == '(' then .error (.nested offset whole)
    else readFrom whole (.inside lowerInclusive (c :: read)) (offset + 1) rest
  | .after, offset, c :: rest =>
    if isBlank c then readFrom whole .after (offset + 1) rest
    else if c == ',' then readFrom whole .before (offset + 1) rest
    else .error (.expectedComma offset whole)

def Group.all (text : List Char) : Except BracketFault (List Group) :=
  readFrom (String.ofList text) .before 0 text

def version? (text : List Char) : Lookup (Option Version) :=
  if text.isEmpty then pure none else some <$> Lookup.version text

/-- The range of a group: one version, or two bounds of which one may be missing. -/
def Group.range (ecosystem : String) (g : Group) : Lookup Range :=
  let fail := fun (fault : String → BracketFault) => Lookup.fail (.bracket ecosystem (fault g.text))
  match cutAt ',' g.inner with
  | (inner, none) =>
    let text := strip inner
    if g.lowerInclusive && g.upperInclusive && !text.isEmpty then .exact <$> Lookup.version text
    else fail .mismatched
  | (first, some second) =>
    let lower := strip first
    let upper := strip second
    if upper.contains ',' then fail .tooManyBounds
    else if lower.isEmpty && upper.isEmpty then fail .noBounds
    else if lower.isEmpty && g.lowerInclusive || upper.isEmpty && g.upperInclusive then
      fail .closedOpenSide
    else do
      let min ← version? lower
      let max ← version? upper
      let interval : Interval := ⟨⟨min, g.lowerInclusive⟩, ⟨max, g.upperInclusive⟩⟩
      if interval.isEmpty then fail .noVersion else return .ofInterval interval

/-- Whether the text is numbers between dots, and perhaps a dash and a qualifier. -/
def isPlainVersion (text : List Char) : Bool :=
  let (release, qualifier?) := cutAt '-' text
  (release.splitOn '.').all isNumeric &&
    match qualifier? with
    | none => true
    | some qualifier =>
      !qualifier.isEmpty && qualifier.all fun c => c.isAlphanum || c == '.' || c == '-'

/-- The range of a text in bracket notation; `other` reads a text that is neither that nor a lone
version. -/
def parse (ecosystem : String) (other : List Char → Lookup Range) (text : String) : Lookup Range :=
  let stripped := strip text.toList
  match stripped with
  | [] => .fail (.bracket ecosystem .blank)
  | first :: _ =>
    if first == '[' || first == '(' then do
      let groups ← Lookup.ofExcept ((Group.all stripped).mapError (.bracket ecosystem))
      match groups with
      | [group] => group.range ecosystem
      | _ => groups.foldlM (fun range group => range.union <$> group.range ecosystem) .empty
    else if isPlainVersion stripped then
      (Range.above · true) <$> Lookup.version stripped
    else other stripped

end Versioning.Bracket
