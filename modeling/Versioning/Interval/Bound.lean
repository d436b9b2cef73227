import Versioning.Version.Order

/-! The ends of an interval: what each admits, and which of two admits less or more. -/

namespace Versioning

inductive Side where
  | lower
  | upper
deriving DecidableEq

/-- The order from the outside of an interval to its inside: upwards at the lower end, downwards at
the upper end. -/
def Side.compare : Side → Version → Version → Ordering
  | .lower, a, b => Ord.compare a b
  | .upper, a, b => Ord.compare b a

/-- The end of an interval.  Without a version it admits everything, and its flag plays no part. -/
structure Bound where
  version : Option Version := none
  inclusive : Bool := true
deriving DecidableEq

namespace Bound

/-- Whether a version lies inside the bound. -/
def admits (side : Side) (b : Bound) (v : Version) : Bool :=
  match b.version with
  | none => true
  | some limit =>
    match side.compare v limit with
    | .lt => false
    | .eq => b.inclusive
    | .gt => true

/-- Of two bounds the one that admits less; where their versions are equal, it is inclusive only if
both are. -/
def tighter (side : Side) (a b : Bound) : Bound :=
  match a.version, b.version with
  | _, none => a
  | none, some _ => b
  | some u, some v =>
    match side.compare u v with
    | .lt => b
    | .eq => { a with inclusive := a.inclusive && b.inclusive }
    | .gt => a

/-- Of two bounds with versions the one that admits more, inclusive if one of equal versions is.  A
bound without a version gives way to the other. -/
def looser (side : Side) (a b : Bound) : Bound :=
  match a.version, b.version with
  | none, _ => b
  | some _, none => a
  | some u, some v =>
    match side.compare u v with
    | .lt => a
    | .eq => { a with inclusive := a.inclusive || b.inclusive }
    | .gt => b

/-- The bound, seen from the other side, of what lies beyond it. -/
def flip (b : Bound) : Bound := { b with inclusive := !b.inclusive }

/-- What is equal for bounds of equal versions and equal flags, and for no others. -/
abbrev Key := Option Version.Key × Bool

def key (b : Bound) : Key := (b.version.map Version.key, b.inclusive)

/-- Whether both bounds have equal versions, or none, and equal flags. -/
def same (a b : Bound) : Bool :=
  a.inclusive == b.inclusive &&
    match a.version, b.version with
    | none, none => true
    | some u, some v => u.same v
    | _, _ => false

end Bound

end Versioning
