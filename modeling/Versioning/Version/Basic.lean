/-! Versions: their components, the text that shows them, and the release that they belong to. -/

namespace Versioning

/-- What a version consists of: `major.minor.patch-prerelease+build`. -/
structure Components where
  major : Int
  minor : Option Int := none
  patch : Option Int := none
  prerelease : Option String := none
  build : Option String := none
deriving DecidableEq

/-- A version and the text that it was read from. -/
structure Version extends Components where
  text : String
deriving DecidableEq

structure Release where
  major : Int
  minor : Int
  patch : Int
deriving DecidableEq

namespace Components

/-- A missing number counts as zero. -/
def release (c : Components) : Release := ⟨c.major, c.minor.getD 0, c.patch.getD 0⟩

/-- A part of the text, after its mark; nothing if it is missing. -/
def renderPart (mark : String) (part : Option String) : String := part.elim "" (mark ++ ·)

/-- The components that are there, each after its mark. -/
def render (c : Components) : String :=
  toString c.major ++ renderPart "." (c.minor.map toString) ++
    renderPart "." (c.patch.map toString) ++ renderPart "-" c.prerelease ++ renderPart "+" c.build

/-- All three numbers and the prerelease, without the build. -/
def normalize (c : Components) : String :=
  s!"{c.release.major}.{c.release.minor}.{c.release.patch}" ++ renderPart "-" c.prerelease

/-- Whether the version is one of those that lead to its release. -/
def isPrerelease (c : Components) : Bool := c.prerelease.isSome

def isStable (c : Components) : Bool := c.prerelease.isNone

end Components

/-- The version with the given components, shown by them. -/
def Version.ofComponents (c : Components) : Version := { c with text := c.render }

end Versioning
