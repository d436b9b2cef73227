import Versioning.Native

/-! Ranges as URIs: `vers:scheme/` and constraints between bars, or `*` for all versions. -/

namespace Versioning

/-- The constraints that together admit the versions of the interval: one for a single version, else
one for each bound. -/
def Interval.constraints (i : Interval) : List Constraint :=
  match i.point? with
  | some v => [⟨.equal, v.text⟩]
  | none =>
    let lower := i.lower.version.map fun v =>
      (⟨if i.lower.inclusive then .greaterEqual else .greater, v.text⟩ : Constraint)
    let upper := i.upper.version.map fun v =>
      (⟨if i.upper.inclusive then .lessEqual else .less, v.text⟩ : Constraint)
    lower.toList ++ upper.toList

namespace Range

def uriStart : String := "vers:"

/-- The URI of the range under the given scheme. -/
def toUri (r : Range) (scheme : String) : String :=
  if r.isUnbounded then "*"
  else
    let constraints := r.intervals.flatMap Interval.constraints
    uriStart ++ scheme ++ "/" ++ "|".intercalate (constraints.map Constraint.render)

def parseUri (text : String) : Lookup Range :=
  if text == "*" then pure unbounded
  else
    match (Text.dropStart? uriStart.toList text.toList).map (Text.cutAt '/') with
    | some (_ :: _, some body) =>
      if body.isEmpty then pure empty
      else if body == ['*'] then pure unbounded
      else ofConstraintList body
    | _ => .fail (.uri text)

/-- The range that the URI shows; there is none where no text is given. -/
def parseUri? : Option String → Lookup Range
  | some text => parseUri text
  | none => .fail (.uri none)

/-- The range that the text shows: as a URI, or in the ecosystem of a name. -/
def parse [Specifier.Reader] (text : String) : (scheme : Option String) → Lookup Range
  | some scheme => parseNative text scheme
  | none => parseUri text

/-- Whether the range of the one text holds the version of the other. -/
def satisfiedBy [Specifier.Reader] (version range : String) (scheme : Option String) :
    Except FormatError Bool := do
  (← (parse range scheme).run).containsText version

end Range

end Versioning
