import Versioning.Version.Order

/-! The series of a version: the versions that share its leading numbers, from the version itself to
the first of the next series. -/

namespace Versioning

inductive Component where
  | major
  | minor
  | patch
deriving DecidableEq

/-- A text that names none of the three numbers. -/
structure ComponentError where
  name : String
deriving DecidableEq

def ComponentError.message (e : ComponentError) : String :=
  s!"Invalid component: {Text.quote e.name}. Must be one of major, minor, patch"

def Component.ofName : String → Except ComponentError Component
  | "major" => .ok .major
  | "minor" => .ok .minor
  | "patch" => .ok .patch
  | name => .error ⟨name⟩

/-- The release with one number raised by one and those after it set to zero. -/
def Release.increment (r : Release) : Component → Release
  | .major => ⟨r.major + 1, 0, 0⟩
  | .minor => ⟨r.major, r.minor + 1, 0⟩
  | .patch => ⟨r.major, r.minor, r.patch + 1⟩

/-- The version with all three numbers of the release and nothing else. -/
def Version.ofRelease (r : Release) : Version :=
  ofComponents { major := r.major, minor := r.minor, patch := r.patch }

namespace Version

/-- The first version of the next series: the given number is one higher. -/
def increment (v : Version) (component : Component) : Version :=
  ofRelease (v.release.increment component)

/-- The first release with the same major and minor numbers. -/
def base (v : Version) : Version := ofRelease { v.release with patch := 0 }

/-- Where `~> base` ends: above the last number but one that `base` writes. -/
def pessimisticEnd (base : Version) : Version :=
  base.increment (if base.minor.isSome || base.patch.isSome then .minor else .major)

/-- Whether the version lies in the series that `~> base` stands for. -/
def satisfiesPessimistic (v base : Version) : Bool := !decide (v < base) && v < base.pessimisticEnd

/-- The version after an optional `~>`. -/
def parsePessimistic (text : String) : Except FormatError Version :=
  let stripped := Text.strip text.toList
  parse (String.ofList (((Text.dropStart? ['~', '>'] stripped).map Text.strip).getD stripped))

end Version

end Versioning
