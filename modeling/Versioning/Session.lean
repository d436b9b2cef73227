import Versioning.Cache
import Versioning.Uri

/-! Requests that are answered with the help of one cache, one after the other. -/

namespace Versioning

inductive Request where
  | version (text : String)
  | uri (text : Option String)
  | native (text scheme : String)
  /-- That the cache forgets its entries. -/
  | clear
deriving DecidableEq

inductive Reply where
  | version (version : Version)
  | range (range : Range)
  | cleared
deriving DecidableEq

namespace Request

variable [Specifier.Reader]

/-- The lookups that lead to the reply. -/
def lookup : Request → Lookup Reply
  | version text => .version <$> Lookup.version text.toList
  | uri text => .range <$> Range.parseUri? text
  | native text scheme => .range <$> Range.parseNative text scheme
  | clear => pure .cleared

/-- The reply without a cache. -/
def answer (request : Request) : Except FormatError Reply := request.lookup.run

/-- The reply with a cache, and the cache after it. -/
def serve (request : Request) (c : Cache) : Except FormatError Reply × Cache :=
  request.lookup.runWith (if request = clear then c.clear else c)

end Request

end Versioning
