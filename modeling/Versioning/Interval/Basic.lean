import Versioning.Interval.Bound

/-! Intervals of versions: what they hold, where two of them meet, and what they look like. -/

namespace Versioning

/-- The versions between two bounds. -/
structure Interval where
  lower : Bound := {}
  upper : Bound := {}
deriving DecidableEq

namespace Interval

def empty : Interval where
  lower := { version := some (.ofComponents { major := 1 }) }
  upper := { version := some (.ofComponents { major := 0 }) }

def unbounded : Interval := {}

def exact (v : Version) : Interval := ⟨{ version := v }, { version := v }⟩

/-- The versions above the given one, which may be one of them. -/
def above (v : Version) (inclusive : Bool) : Interval := { lower := ⟨v, inclusive⟩ }

/-- The versions below the given one, which may be one of them. -/
def below (v : Version) (inclusive : Bool) : Interval := { upper := ⟨v, inclusive⟩ }

/-- The versions from the first up to but without the second. -/
def upTo (first last : Version) : Interval := ⟨{ version := first }, ⟨last, false⟩⟩

/-- The interval between the versions that two texts show; the lower one is read first. -/
def ofTexts (lower upper : Option String) (lowerInclusive upperInclusive : Bool) :
    Except FormatError Interval := do
  let min ← lower.mapM Version.parse
  let max ← upper.mapM Version.parse
  return ⟨⟨min, lowerInclusive⟩, ⟨max, upperInclusive⟩⟩

/-- Whether the bounds leave no place for a version. -/
def isEmpty (i : Interval) : Bool :=
  match i.lower.version, i.upper.version with
  | some min, some max =>
    match compare min max with
    | .lt => false
    | .eq => !(i.lower.inclusive && i.upper.inclusive)
    | .gt => true
  | _, _ => false

def isUnbounded (i : Interval) : Bool := i.lower.version.isNone && i.upper.version.isNone

/-- The only version of the interval, if it has bounds that meet in one. -/
def point? (i : Interval) : Option Version :=
  match i.lower.version, i.upper.version with
  | some min, some max =>
    if min.same max && i.lower.inclusive && i.upper.inclusive then some min else none
  | _, _ => none

def contains (i : Interval) (v : Version) : Bool :=
  !i.isEmpty && i.lower.admits .lower v && i.upper.admits .upper v

/-- Whether the interval holds the version that the text shows; where bounds decide nothing, any
text will do. -/
def containsText (i : Interval) (text : String) : Except FormatError Bool :=
  if i.isEmpty then .ok false
  else if i.isUnbounded then .ok true
  else (Version.parse text).map i.contains

def inter (a b : Interval) : Interval :=
  if a.isEmpty || b.isEmpty then empty
  else ⟨a.lower.tighter .lower b.lower, a.upper.tighter .upper b.upper⟩

/-- Whether some version may lie in both intervals. -/
def overlaps (a b : Interval) : Bool := !a.isEmpty && !b.isEmpty && !(a.inter b).isEmpty

/-- For an upper and a lower bound of equal versions, whether just one of them is inclusive. -/
def touch? (upper lower : Bound) : Option Bool :=
  match upper.version, lower.version with
  | some max, some min => if max.same min then some (upper.inclusive != lower.inclusive) else none
  | _, _ => none

/-- Whether one interval ends where the other begins, and just one of them holds the version there.
The end of `a` is looked at first. -/
def isAdjacent (a b : Interval) : Bool :=
  !a.isEmpty && !b.isEmpty && ((touch? a.upper b.lower).or (touch? b.upper a.lower)).getD false

/-- The interval that two which overlap or are adjacent merge into.  A side on which only one of
them has a version keeps that bound, so that a ray and the ray against it merge into what lies
between their ends. -/
def union (a b : Interval) : Option Interval :=
  if a.isEmpty then some b
  else if b.isEmpty then some a
  else if a.overlaps b || a.isAdjacent b then
    some ⟨a.lower.looser .lower b.lower, a.upper.looser .upper b.upper⟩
  else none

/-- What lies below the interval, if it has a lower bound. -/
def before? (i : Interval) : Option Interval :=
  i.lower.version.map fun _ => { upper := i.lower.flip }

/-- What lies above the interval, if it has an upper bound. -/
def after? (i : Interval) : Option Interval :=
  i.upper.version.map fun _ => { lower := i.upper.flip }

/-- What lies between two intervals, if the bounds there have versions. -/
def between? (a b : Interval) : Option Interval :=
  if a.upper.version.isSome && b.lower.version.isSome then some ⟨a.upper.flip, b.lower.flip⟩
  else none

/-- The interval with the version taken out of it, in two pieces, of which one may be empty. -/
def without (i : Interval) (v : Version) : List Interval :=
  if i.contains v then [{ i with upper := ⟨v, false⟩ }, { i with lower := ⟨v, false⟩ }] else [i]

/-- By lower, then by upper version; a missing one comes first. -/
def compare (a b : Interval) : Ordering :=
  (Ord.compare a.lower.version b.lower.version).then
    (Ord.compare a.upper.version b.upper.version)

/-- What is equal for intervals of equal bounds, and for no others. -/
abbrev Key := Bound.Key × Bound.Key

def key (i : Interval) : Key := (i.lower.key, i.upper.key)

def same (a b : Interval) : Bool := a.lower.same b.lower && a.upper.same b.upper

/-- The interval in brackets: square ones where the bound is part of it. -/
def render (i : Interval) : String :=
  if i.isEmpty then "∅"
  else if i.isUnbounded then "(-∞,+∞)"
  else
    let opening := if i.lower.version.isSome && i.lower.inclusive then "[" else "("
    let closing := if i.upper.version.isSome && i.upper.inclusive then "]" else ")"
    let min := i.lower.version.elim "-∞" Version.text
    let max := i.upper.version.elim "+∞" Version.text
    opening ++ min ++ "," ++ max ++ closing

end Interval

end Versioning
