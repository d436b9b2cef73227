import Versioning.Text.Digit
import Versioning.Version.Reader

/-! The order of versions: by release, then a prerelease before its release, then by identifiers.
Equal versions are those with the same key. -/

namespace Versioning

/-- The order of releases: the major number counts most. -/
def Release.compare (a b : Release) : Ordering :=
  (Ord.compare a.major b.major).then
    ((Ord.compare a.minor b.minor).then (Ord.compare a.patch b.patch))

instance : Std.OrientedCmp Release.compare where
  eq_swap {a b} := by
    simp only [Release.compare, Ordering.swap_then]
    rw [@Std.OrientedCmp.eq_swap Int Ord.compare _ a.major b.major,
      @Std.OrientedCmp.eq_swap Int Ord.compare _ a.minor b.minor,
      @Std.OrientedCmp.eq_swap Int Ord.compare _ a.patch b.patch]

/-- A part of a prerelease between dots. -/
abbrev Identifier := List Char

/-- Two numbers compare by value, other identifiers by their characters. -/
def Identifier.compare (a b : Identifier) : Ordering :=
  if Text.isNumeric a && Text.isNumeric b then Ord.compare (Text.numeral a) (Text.numeral b)
  else Ord.compare a b

instance : Std.OrientedCmp Identifier.compare where
  eq_swap {a b} := by
    unfold Identifier.compare
    rw [Bool.and_comm]
    split
    · exact Std.OrientedCmp.eq_swap
    · exact Std.OrientedCmp.eq_swap

/-- What is equal for equal identifiers, and for no others. -/
inductive Identifier.Key where
  | number (value : Nat)
  | word (chars : List Char)
deriving DecidableEq

def Identifier.key (a : Identifier) : Key :=
  if Text.isNumeric a then .number (Text.numeral a) else .word a

/-- The identifiers of the prerelease, if the version is one. -/
def Components.identifiers (c : Components) : Option (List Identifier) :=
  c.prerelease.map (·.toList.splitOn '.')

/-- The first difference of two lists of identifiers decides, then their lengths; where there is no
prerelease, the version is the release itself and comes last. -/
def comparePrereleases : Option (List Identifier) → Option (List Identifier) → Ordering
  | none, none => .eq
  | none, some _ => .gt
  | some _, none => .lt
  | some a, some b => List.compareLex Identifier.compare a b

instance : Std.OrientedCmp comparePrereleases where
  eq_swap {a b} := by
    cases a <;> cases b <;> simp [comparePrereleases]
    exact Std.OrientedCmp.eq_swap

namespace Version

/-- By release, then by prerelease; the build plays no part. -/
def compare (a b : Version) : Ordering :=
  (a.release.compare b.release).then (comparePrereleases a.identifiers b.identifiers)

instance : Ord Version := ⟨compare⟩

/-- Of two different versions one comes first, whatever their identifiers. -/
instance : Std.OrientedOrd Version where
  eq_swap {a b} := by
    change Version.compare a b = (Version.compare b a).swap
    simp only [Version.compare, Ordering.swap_then]
    rw [@Std.OrientedCmp.eq_swap _ Release.compare _ a.release b.release,
      @Std.OrientedCmp.eq_swap _ comparePrereleases _ a.identifiers b.identifiers]

instance : LT Version := ltOfOrd

instance : LE Version := leOfOrd

/-- Whether neither version comes before the other. -/
def same (a b : Version) : Bool := (Ord.compare a b).isEq

/-- What is equal for versions of the same place in the order, and for no others. -/
structure Key where
  release : Release
  identifiers : Option (List Identifier.Key)
deriving DecidableEq

def key (v : Version) : Key := ⟨v.release, v.identifiers.map (·.map Identifier.key)⟩

/-- How many versions there are when equal ones count once. -/
def countDistinct (versions : List Version) : Nat := (versions.map key).eraseDups.length

/-- The order of two versions given by their texts; one that is not given comes first. -/
def compareTexts : (a b : Option String) → Except FormatError Ordering
  | some a, some b => do
    let first ← parse a
    let second ← parse b
    return compare first second
  | a, b => .ok (Ord.compare a.isSome b.isSome)

end Version

end Versioning
