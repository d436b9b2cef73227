import Versioning.Native.Bracket
import Versioning.Native.Gem
import Versioning.Native.Npm
import Versioning.Native.Pep440
import Versioning.Native.Pypi

/-! Ranges as package ecosystems write them. -/

namespace Versioning

/-- The ecosystems whose ranges have a grammar of their own. -/
inductive Scheme where
  | npm
  | gem
  | pypi
  | maven
  | nuget
  | deb
  | rpm
deriving DecidableEq

namespace Scheme

def name : Scheme → String
  | npm => "npm"
  | gem => "gem"
  | pypi => "pypi"
  | maven => "maven"
  | nuget => "nuget"
  | deb => "deb"
  | rpm => "rpm"

/-- The ecosystem of a name, which may have blanks around it and be in letters of either case.  No
name has a letter that is the small form of a character outside ASCII. -/
def ofName? (name : String) : Option Scheme :=
  match String.ofList ((Text.strip name.toList).map Char.toLower) with
  | "npm" => some npm
  | "gem" | "rubygems" => some gem
  | "pypi" => some pypi
  | "maven" => some maven
  | "nuget" => some nuget
  | "deb" | "debian" => some deb
  | "rpm" => some rpm
  | _ => none

/-- The range of a constraint list with doubled signs for the strict comparisons. -/
def parseDebian (text : String) : Lookup Range :=
  let single := fun sign cs => [sign].intercalate (Text.splitOnPair sign cs)
  Range.ofConstraintList (single '<' (single '>' text.toList))

def parse [Specifier.Reader] : Scheme → String → Lookup Range
  | npm => Npm.parse
  | gem => Gem.parse
  | pypi => Pypi.parse
  | maven => Bracket.parse "maven" Range.ofConstraintList
  | nuget => Bracket.parse "nuget" fun text => .fail (.bracket "nuget" (.form (String.ofList text)))
  | deb => parseDebian
  | rpm => fun text => Range.ofConstraintList text.toList

end Scheme

namespace Range

/-- The grammar of the ecosystem of the given name; any other name stands for constraints between
bars. -/
def grammarOf [Specifier.Reader] (scheme : String) : String → Lookup Range :=
  match Scheme.ofName? scheme with
  | some ecosystem => ecosystem.parse
  | none => fun text => ofConstraintList text.toList

/-- The range that the text shows in the ecosystem of the given name.  A constraint or version in it
that could not be read is reported as the reason why the range could not. -/
def parseNative [Specifier.Reader] (text scheme : String) : Lookup Range :=
  (grammarOf scheme text).mapError fun e => if e.kind = .range then e else .native scheme text e

end Range

end Versioning
