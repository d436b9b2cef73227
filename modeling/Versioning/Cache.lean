import Versioning.Lookup

/-! A bounded memory of versions that were read, which counts how often it could answer. -/

namespace Versioning

/-- A number of entries that is less than one. -/
structure CapacityError where
  requested : Int
deriving DecidableEq

def CapacityError.message (e : CapacityError) : String :=
  s!"Cache capacity must be positive, got {e.requested}"

/-- Versions under the texts that they were read from, and how many lookups were answered from
them (`hits`) and by reading (`misses`). -/
structure Cache where
  capacity : Nat
  entries : List (String × Version) := []
  hits : Nat := 0
  misses : Nat := 0
  capacity_pos : 0 < capacity

namespace Cache

def ofCapacity (requested : Int) : Except CapacityError Cache :=
  if h : 0 < requested then .ok { capacity := requested.toNat, capacity_pos := by omega }
  else .error ⟨requested⟩

def size (c : Cache) : Nat := c.entries.length

/-- The cache without its entries; the counts stay. -/
def clear (c : Cache) : Cache := { c with entries := [] }

/-- The cache with one more version that had to be read.  A full cache starts anew. -/
def insert (c : Cache) (text : String) (v : Version) : Cache :=
  { c with
    misses := c.misses + 1
    entries := (text, v) :: if c.capacity ≤ c.size then [] else c.entries }

/-- The version that the text shows, from the cache if it is there; a text that shows none changes
nothing. -/
def get (c : Cache) (text : String) : Except FormatError Version × Cache :=
  match c.entries.lookup text with
  | some v => (.ok v, { c with hits := c.hits + 1 })
  | none =>
    match Version.parse text with
    | .ok v => (.ok v, c.insert text v)
    | .error e => (.error e, c)

end Cache

/-- The outcome when a cache answers each lookup, and the cache after it. -/
def Lookup.runWith {α : Type} : Lookup α → Cache → Except FormatError α × Cache
  | done value, c => (.ok value, c)
  | fail error, c => (.error error, c)
  | ask text next, c => (next (c.get text).1).runWith (c.get text).2

end Versioning
