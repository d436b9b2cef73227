import Versioning.Proofs.Range.Separated
import Versioning.Proofs.Version.Equality
import Versioning.Proofs.Version.Reader
import Versioning.Range.Series

/-! Series of versions.  A stable version lies between a version and the first of the next series
just if it is no lower and has the same leading numbers.  This needs no order of prereleases: of a
stable version only the release is compared with the ends, or it comes after a prerelease of it.  A
prerelease may also lead to the first version of the next series, and so lie below that. -/

namespace Versioning

/-- The three numbers, the one that counts most first. -/
def Release.numbers (r : Release) : List Int := [r.major, r.minor, r.patch]

/-- How many numbers there are up to the first one that is not zero; more than all of them, if there
is none. -/
def Release.leading (r : Release) : Nat := (r.numbers.takeWhile (· == 0)).length + 1

/-- How many numbers the versions of one series share. -/
def Component.count : Component → Nat
  | major => 1
  | minor => 2
  | patch => 3

namespace Version

/-- The first `count` of the three numbers are the same in both versions. -/
def AgreesOn (count : Nat) (v w : Version) : Prop :=
  v.release.numbers.take count = w.release.numbers.take count

instance (count : Nat) (v w : Version) : Decidable (v.AgreesOn count w) :=
  inferInstanceAs (Decidable (_ = _))

end Version

/-! ### Releases -/

namespace Release

variable {r s : Release}

theorem compare_eq_lt_iff : r.compare s = .lt ↔ r.major < s.major ∨
    r.major = s.major ∧ (r.minor < s.minor ∨ r.minor = s.minor ∧ r.patch < s.patch) := by
  simp only [Release.compare, Ordering.then_eq_lt, Int.compare_eq_lt, Int.compare_eq_eq]

theorem compare_increment (r : Release) (component : Component) :
    r.compare (r.increment component) = .lt := by
  rw [compare_eq_lt_iff]
  cases component with
  | major => exact .inl (Int.lt_succ _)
  | minor => exact .inr ⟨rfl, .inl (Int.lt_succ _)⟩
  | patch => exact .inr ⟨rfl, .inr ⟨rfl, Int.lt_succ _⟩⟩

/-- Of the releases from `s` on, those before the next series have the leading numbers of `s`. -/
theorem compare_increment_eq_lt_iff (component : Component) (hminor : 0 ≤ r.minor)
    (hpatch : 0 ≤ r.patch) (hle : r.compare s ≠ .lt) :
    r.compare (s.increment component) = .lt ↔
      r.numbers.take component.count = s.numbers.take component.count := by
  rw [Ne, compare_eq_lt_iff] at hle
  rw [compare_eq_lt_iff]
  cases component <;> simp [increment, numbers, Component.count] <;> omega

/-- Up to the first number that is not zero, there is one number, or there are two or three. -/
theorem take_leading (major minor patch : Nat) (s : Release) :
    s.numbers.take (leading ⟨major, minor, patch⟩) = s.numbers.take
      (if 0 < major then Component.major else if 0 < minor then .minor else .patch).count := by
  rcases major with _ | major <;> rcases minor with _ | minor <;> rcases patch with _ | patch <;>
    simp [leading, numbers, Component.count] <;> omega

end Release

/-! ### Stable versions and prereleases -/

namespace Version

variable {u v w : Version} {component : Component}

theorem le_iff_not_lt : u ≤ v ↔ ¬v < u := by
  change (Ord.compare u v).isLE = true ↔ ¬Ord.compare v u = .lt
  rw [Std.OrientedOrd.eq_swap (a := u)]
  cases Ord.compare v u <;> simp

theorem compare_release_ne_lt (h : u ≤ v) : v.release.compare u.release ≠ .lt := by
  intro hlt
  refine le_iff_not_lt.mp h ?_
  change Version.compare v u = .lt
  rw [Version.compare, hlt, Ordering.lt_then]

@[simp] theorem release_ofRelease (r : Release) : (ofRelease r).release = r := rfl

theorem lt_ofRelease_iff (hv : v.prerelease = none) (r : Release) :
    v < ofRelease r ↔ v.release.compare r = .lt := by
  have hidentifiers : v.identifiers = none := by rw [Components.identifiers, hv, Option.map_none]
  change (v.release.compare r).then (comparePrereleases v.identifiers none) = .lt ↔ _
  rw [hidentifiers]
  cases v.release.compare r <;> simp [comparePrereleases]

theorem lt_increment (v : Version) (component : Component) : v < v.increment component := by
  change (v.release.compare (v.release.increment component)).then _ = .lt
  rw [v.release.compare_increment, Ordering.lt_then]

/-- From a version on, the stable versions before the next series have its leading numbers. -/
theorem lt_increment_iff (hn : v.IsNatural) (hv : v.prerelease = none) (h : u ≤ v) :
    v < u.increment component ↔ v.AgreesOn component.count u := by
  obtain ⟨major, minor, patch, hrelease⟩ := hn.exists_release
  have hle := compare_release_ne_lt h
  rw [increment, lt_ofRelease_iff hv, AgreesOn]
  refine Release.compare_increment_eq_lt_iff component ?_ ?_ hle
  · rw [hrelease]
    exact Int.natCast_nonneg minor
  · rw [hrelease]
    exact Int.natCast_nonneg patch

/-- A prerelease also comes before the release that it leads to. -/
theorem lt_ofRelease_iff_of_isPrerelease (hv : v.isPrerelease = true) (r : Release) :
    v < ofRelease r ↔ v.release.compare r = .lt ∨ v.release = r := by
  obtain ⟨prerelease, hprerelease⟩ := Option.isSome_iff_exists.mp hv
  have hidentifiers : v.identifiers = some (prerelease.toList.splitOn '.') := by
    rw [Components.identifiers, hprerelease, Option.map_some]
  change (v.release.compare r).then (comparePrereleases v.identifiers none) = .lt ↔ _
  rw [hidentifiers, ← Release.compare_eq_eq_iff]
  cases v.release.compare r <;> simp [comparePrereleases]

theorem le_of_compare_release (h : u.release.compare v.release = .lt) : u ≤ v := by
  rw [le_iff_not_lt]
  have hswap : v.release.compare u.release = .gt := Std.OrientedCmp.gt_of_lt h
  change ¬(v.release.compare u.release).then _ = .lt
  rw [hswap, Ordering.gt_then]
  exact nofun

/-- The version is one of the series that starts with `w`, or it leads to the release with which the
next series starts. -/
def PrecedesNext (component : Component) (v w : Version) : Prop :=
  w ≤ v ∧ v.AgreesOn component.count w ∨ v.release = w.release.increment component

instance (component : Component) (v w : Version) : Decidable (v.PrecedesNext component w) :=
  inferInstanceAs (Decidable (_ ∨ _))

/-- Of the prereleases, those of the next release lie below it too. -/
theorem le_and_lt_increment_iff_of_isPrerelease (hn : v.IsNatural) (hv : v.isPrerelease = true) :
    u ≤ v ∧ v < u.increment component ↔ v.PrecedesNext component u := by
  obtain ⟨major, minor, patch, hrelease⟩ := hn.exists_release
  have hminor : 0 ≤ v.release.minor := hrelease ▸ Int.natCast_nonneg minor
  have hpatch : 0 ≤ v.release.patch := hrelease ▸ Int.natCast_nonneg patch
  have hseries (hle : u ≤ v) : v.release.compare (u.release.increment component) = .lt ↔
      v.AgreesOn component.count u :=
    Release.compare_increment_eq_lt_iff component hminor hpatch (compare_release_ne_lt hle)
  rw [increment, lt_ofRelease_iff_of_isPrerelease hv, PrecedesNext]
  constructor
  · rintro ⟨hle, hlt | hnext⟩
    · exact .inl ⟨hle, (hseries hle).mp hlt⟩
    · exact .inr hnext
  · rintro (⟨hle, hagrees⟩ | hnext)
    · exact ⟨hle, .inl ((hseries hle).mpr hagrees)⟩
    · exact ⟨le_of_compare_release (hnext ▸ Release.compare_increment _ _), .inr hnext⟩

theorem satisfiesPessimistic_iff (hn : v.IsNatural) (hv : v.prerelease = none) :
    v.satisfiesPessimistic u = true ↔
      u ≤ v ∧ v.AgreesOn (if u.minor.isSome || u.patch.isSome then 2 else 1) u := by
  rw [satisfiesPessimistic, Bool.and_eq_true, Bool.not_eq_true', decide_eq_false_iff_not,
    ← le_iff_not_lt, decide_eq_true_iff]
  refine and_congr_right fun hle => ?_
  rw [pessimisticEnd, lt_increment_iff hn hv hle]
  split <;> rfl

end Version

/-! ### Intervals -/

section Ends

variable {u v w : Version}

theorem Bound.admits_lower_iff : admits .lower ⟨some u, true⟩ v = true ↔ u ≤ v := by
  rw [Version.le_iff_not_lt]
  change _ ↔ ¬Ord.compare v u = .lt
  simp only [admits, Side.compare]
  cases Ord.compare v u <;> simp

theorem Bound.admits_upper_iff : admits .upper ⟨some w, false⟩ v = true ↔ v < w := by
  change _ ↔ Ord.compare v w = .lt
  simp only [admits, Side.compare]
  rw [Std.OrientedOrd.eq_swap (a := w)]
  cases Ord.compare v w <;> simp

namespace Interval

theorem isEmpty_upTo (h : u < w) : (upTo u w).isEmpty = false := by
  have hcompare : Ord.compare u w = .lt := h
  simp [isEmpty, upTo, hcompare]

theorem contains_upTo_iff (h : u < w) : (upTo u w).contains v = true ↔ u ≤ v ∧ v < w := by
  rw [← Bound.admits_lower_iff, ← Bound.admits_upper_iff, ← Bool.and_eq_true, contains,
    isEmpty_upTo h]
  rfl

theorem contains_below_iff_lt : (below w false).contains v = true ↔ v < w :=
  Bound.admits_upper_iff

theorem contains_above_iff_le : (above u true).contains v = true ↔ u ≤ v := by
  rw [← Bound.admits_lower_iff, ← Bool.and_true (Bound.admits ..)]
  rfl

end Interval

/-! ### Ranges -/

namespace Range

variable {component : Component}

theorem unbounded_inter_eq (r : Range) :
    unbounded.inter r = ofIntervals (r.intervals.map Interval.unbounded.inter) :=
  congrArg ofIntervals (List.append_nil _)

/-- The range of all versions takes nothing from one between two versions. -/
theorem unbounded_inter_upTo (h : u < w) : unbounded.inter (upTo u w) = upTo u w := by
  have he := Interval.isEmpty_upTo h
  have hone : (upTo u w).intervals = [.upTo u w] := congrArg intervals (ofIntervals_singleton he)
  have hinter : Interval.unbounded.inter (.upTo u w) = .upTo u w := by
    rw [Interval.inter, he]
    rfl
  rw [unbounded_inter_eq, hone, List.map_singleton, hinter, upTo, ofInterval]

theorem contains_upTo_iff (h : u < w) : (upTo u w).contains v = true ↔ u ≤ v ∧ v < w := by
  rw [upTo, contains_ofInterval, Interval.contains_upTo_iff h]

/-- The range of all versions takes nothing from what lies outside of two versions. -/
theorem contains_unbounded_inter_compl_upTo_iff (h : u < w) :
    (unbounded.inter (upTo u w).compl).contains v = true ↔ v < u ∨ w ≤ v := by
  have hcompl : (upTo u w).compl = ofIntervals [.below u false, .above w true] := by
    rw [upTo, ofInterval, ofIntervals_singleton (Interval.isEmpty_upTo h)]
    rfl
  have hperm : (ofIntervals [.below u false, .above w true]).intervals.Perm
      [.below u false, .above w true] :=
    perm_ofIntervals_of_union (List.pairwise_pair.mpr (Interval.union_rays_eq_none (.inl h)))
  have hrays : ((ofIntervals [.below u false, .above w true]).intervals.map
      Interval.unbounded.inter).Perm [.below u false, .above w true] :=
    hperm.map Interval.unbounded.inter
  rw [hcompl, unbounded_inter_eq, contains_ofIntervals_of_perm_rays (.inl h) hrays,
    Interval.contains_below_iff_lt, Interval.contains_above_iff_le]

/-- A series depends on the release and the prerelease alone with which it starts. -/
theorem contains_series_congr (hrelease : u.release = w.release)
    (hidentifiers : u.identifiers = w.identifiers) (v : Version) :
    (series u component).contains v = (series w component).contains v := by
  have hnext : u.increment component = w.increment component := by
    rw [Version.increment, hrelease, Version.increment]
  have hcompare : Version.compare u v = Version.compare w v := by
    rw [Version.compare, hrelease, hidentifiers, Version.compare]
  have hle : u ≤ v ↔ w ≤ v := by
    change (Version.compare u v).isLE = true ↔ (Version.compare w v).isLE = true
    rw [hcompare]
  rw [Bool.eq_iff_iff, series, contains_upTo_iff (u.lt_increment component), series,
    contains_upTo_iff (w.lt_increment component), hle, hnext]

theorem unbounded_inter_series (u : Version) (component : Component) :
    unbounded.inter (series u component) = series u component :=
  unbounded_inter_upTo (u.lt_increment component)

/-! ### Versions of series -/

/-- The stable versions of a series are those from its first version on that have the same leading
numbers. -/
theorem contains_series_iff (hn : v.IsNatural) (hv : v.prerelease = none) :
    (series u component).contains v = true ↔ u ≤ v ∧ v.AgreesOn component.count u := by
  rw [series, contains_upTo_iff (u.lt_increment component)]
  exact and_congr_right fun hle => Version.lt_increment_iff hn hv hle

theorem contains_series_iff_of_isPrerelease (hn : v.IsNatural) (hv : v.isPrerelease = true) :
    (series u component).contains v = true ↔ v.PrecedesNext component u := by
  rw [series, contains_upTo_iff (u.lt_increment component)]
  exact Version.le_and_lt_increment_iff_of_isPrerelease hn hv

/-- The series of a release that ends in zeros starts below all stable versions with its leading
numbers. -/
theorem contains_series_ofRelease_iff {r : Release} (hn : v.IsNatural) (hv : v.prerelease = none)
    (hr : ∀ n ∈ r.numbers.drop component.count, n = 0) :
    (series (.ofRelease r) component).contains v = true ↔
      v.AgreesOn component.count (.ofRelease r) := by
  rw [contains_series_iff hn hv]
  refine and_iff_right_of_imp fun hagrees => ?_
  obtain ⟨major, minor, patch, hrelease⟩ := hn.exists_release
  rw [Version.le_iff_not_lt, Version.lt_ofRelease_iff hv, Release.compare_eq_lt_iff]
  rw [Version.AgreesOn, Version.release_ofRelease] at hagrees
  rw [hrelease] at hagrees ⊢
  cases component <;> simp [Release.numbers, Component.count] at hagrees hr ⊢ <;> omega

theorem contains_unbounded_inter_series_iff (hn : v.IsNatural) (hv : v.prerelease = none) :
    (unbounded.inter (series u component)).contains v = true ↔
      u ≤ v ∧ v.AgreesOn component.count u := by
  rw [unbounded_inter_series]
  exact contains_series_iff hn hv

theorem contains_unbounded_inter_compl_series_iff (hn : v.IsNatural) (hv : v.prerelease = none) :
    (unbounded.inter (series u component).compl).contains v = true ↔
      ¬(u ≤ v ∧ v.AgreesOn component.count u) := by
  have houtside : v < u ∨ u.increment component ≤ v ↔ ¬(u ≤ v ∧ v < u.increment component) := by
    rw [Version.le_iff_not_lt, Version.le_iff_not_lt, not_and_or, not_not]
  rw [series, contains_unbounded_inter_compl_upTo_iff (u.lt_increment component), houtside]
  exact not_congr (and_congr_right fun hle => Version.lt_increment_iff hn hv hle)

end Range

end Ends

end Versioning
