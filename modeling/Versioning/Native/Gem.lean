import Versioning.Range.Constraints
import Versioning.Range.Series

/-! Requirements of gems: constraints and pessimistic versions between commas, all of which a
version has to meet. -/

namespace Versioning.Gem

open Text

/-- The rest of a requirement that starts with the pessimistic operator. -/
def pessimistic? (requirement : List Char) : Option (List Char) := dropStart? ['~', '>'] requirement

/-- The versions from the given one up to where its minor number changes, or its major number if it
has no patch number. -/
def pessimistic (v : Version) : Range := .series v (if v.patch.isSome then .minor else .major)

/-- The range of the version after a pessimistic operator. -/
def pessimisticRange (rest : List Char) : Lookup Range :=
  let text := strip rest
  if text.isEmpty then .fail (.gem .noVersion) else pessimistic <$> Lookup.version text

/-- The range of a list of requirements; a blank one admits all versions.  The constraints among
them make up one list. -/
def parse (text : String) : Lookup Range :=
  if (strip text.toList).isEmpty then pure .unbounded
  else
    let requirements := (text.toList.splitOn ',').map strip
    if requirements.any (·.isEmpty) then .fail (.gem (.blank text))
    else do
      let plain := requirements.filter (pessimistic? · |>.isNone)
      let start ← if plain.isEmpty then pure .unbounded else Range.ofPieces plain
      (requirements.filterMap pessimistic?).foldlM
        (fun range rest => range.inter <$> pessimisticRange rest) start

end Versioning.Gem
