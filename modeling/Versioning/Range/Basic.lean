import Versioning.Interval.Basic
import Versioning.StableSort

/-! Ranges of versions: intervals in ascending order that were merged where they meet. -/

namespace Versioning

/-- The versions of several intervals. -/
structure Range where
  intervals : List Interval
deriving DecidableEq

/-- The intervals in order, with `current` before them, each merged into the one before it where
that is possible.  A merge may leave nothing; then the next interval starts anew. -/
def coalesce : (current : Option Interval) → List Interval → List Interval
  | current, [] => current.toList
  | none, next :: rest => coalesce (some next) rest
  | some current, next :: rest =>
    match current.union next with
    | none => current :: coalesce (some next) rest
    | some merged => coalesce (if merged.isEmpty then none else some merged) rest

namespace Range

/-- The range of the given intervals, which may be empty, overlap, and come in any order. -/
def ofIntervals (intervals : List Interval) : Range :=
  ⟨coalesce none (stableSort Interval.compare (intervals.filter (!·.isEmpty)))⟩

/-- The range of the intervals that are there. -/
def ofOptional (intervals : List (Option Interval)) : Range := ofIntervals (intervals.filterMap id)

def empty : Range := ⟨[]⟩

def ofInterval (i : Interval) : Range := ofIntervals [i]

def unbounded : Range := ofInterval .unbounded

def exact (v : Version) : Range := ofInterval (.exact v)

/-- The versions above the given one, which may be one of them. -/
def above (v : Version) (inclusive : Bool) : Range := ofInterval (.above v inclusive)

/-- The versions below the given one, which may be one of them. -/
def below (v : Version) (inclusive : Bool) : Range := ofInterval (.below v inclusive)

/-- The versions from the first up to but without the second. -/
def upTo (first last : Version) : Range := ofInterval (.upTo first last)

def isEmpty (r : Range) : Bool := r.intervals.isEmpty

def isUnbounded (r : Range) : Bool :=
  match r.intervals with
  | [i] => i.isUnbounded
  | _ => false

def contains (r : Range) (v : Version) : Bool := r.intervals.any (·.contains v)

/-- Whether the range holds the version that the text shows. -/
def containsText (r : Range) (text : String) : Except FormatError Bool :=
  (Version.parse text).map r.contains

def union (r s : Range) : Range := ofIntervals (r.intervals ++ s.intervals)

/-- What an interval of the one range shares with an interval of the other. -/
def inter (r s : Range) : Range :=
  ofIntervals (r.intervals.flatMap fun a => s.intervals.map a.inter)

/-- What lies between the intervals and after the last. -/
def gapsAfter : List Interval → List (Option Interval)
  | [] => []
  | [last] => [last.after?]
  | a :: b :: rest => a.between? b :: gapsAfter (b :: rest)

/-- What lies before, between and after the intervals of the range. -/
def compl (r : Range) : Range :=
  match r.intervals with
  | [] => unbounded
  | first :: rest => ofOptional (first.before? :: gapsAfter (first :: rest))

/-- The range without one version; the interval that holds it falls into two pieces. -/
def exclude (r : Range) (v : Version) : Range :=
  if r.contains v then ofIntervals (r.intervals.flatMap (·.without v)) else r

/-- What is equal for ranges of equal intervals, and for no others. -/
def key (r : Range) : List Interval.Key := r.intervals.map Interval.key

/-- Whether the intervals of both ranges are equal, one by one. -/
def same (r s : Range) : Bool := List.isEqv r.intervals s.intervals Interval.same

/-- How many ranges there are when equal ones count once. -/
def countDistinct (ranges : List Range) : Nat := (ranges.map key).eraseDups.length

def render (r : Range) : String :=
  if r.isEmpty then "∅" else " ∪ ".intercalate (r.intervals.map Interval.render)

/-- The rendered range as a message shows it. -/
def describe (r : Range) : String := s!"VersionRange({Text.quote r.render})"

/-- Whether both ranges agree on each of the probes, which are versions; probes after the first
disagreement are not read. -/
def agreeOn (r s : Range) : (probes : List String) → Except FormatError Bool
  | [] => .ok true
  | probe :: probes => do
    let v ← Version.parse probe
    if r.contains v == s.contains v then agreeOn r s probes else return false

/-- Versions around the places where the bounds of usual ranges lie. -/
def defaultProbes : List String :=
  ["0.0.1", "0.9.0", "1.0.0-alpha", "1.0.0", "1.0.1", "1.2.2", "1.2.3", "1.5.0", "1.9.9", "2.0.0",
    "2.0.1", "2.5.0", "3.0.0", "10.0.0"]

end Range

end Versioning
