import Versioning.Range.Basic
import Versioning.Version.Series

/-! The range of a series of versions. -/

namespace Versioning.Range

/-- The versions from the given one up to the next series. -/
def series (first : Version) (component : Component) : Range :=
  upTo first (first.increment component)

end Versioning.Range
