import Versioning.Proofs.Range.Series

/-! The version with which the next series starts.  Among the stable versions it is the least one
whose leading numbers are greater than those of the series: the numbers behind them are zeros, and a
stable version comes after the prereleases of its release.  So it is what a series can end before,
and the series is never empty. -/

namespace Versioning

namespace Release

variable {r s : Release} {component : Component}

/-- No release of a later series comes before the first of the next one, as its numbers behind the
leading ones are no less than zero. -/
theorem compare_increment_ne_lt_iff (hminor : 0 ≤ s.minor) (hpatch : 0 ≤ s.patch) :
    s.compare (r.increment component) ≠ .lt ↔
      r.numbers.take component.count < s.numbers.take component.count := by
  rw [Ne, compare_eq_lt_iff]
  cases component with
  | major =>
    show ¬_ ↔ [r.major] < [s.major]
    simp only [increment, List.cons_lt_cons_iff, List.not_lt_nil, and_false, or_false]
    omega
  | minor =>
    show ¬_ ↔ [r.major, r.minor] < [s.major, s.minor]
    simp only [increment, List.cons_lt_cons_iff, List.not_lt_nil, and_false, or_false]
    omega
  | patch =>
    show ¬_ ↔ [r.major, r.minor, r.patch] < [s.major, s.minor, s.patch]
    simp only [increment, List.cons_lt_cons_iff, List.not_lt_nil, and_false, or_false]
    omega

end Release

namespace Version

variable {v w : Version} {component : Component}

theorem increment_le_iff (hn : w.IsNatural) (hw : w.prerelease = none) :
    v.increment component ≤ w ↔
      v.release.numbers.take component.count < w.release.numbers.take component.count := by
  obtain ⟨major, minor, patch, hrelease⟩ := hn.exists_release
  have hminor : 0 ≤ w.release.minor := hrelease ▸ Int.natCast_nonneg minor
  have hpatch : 0 ≤ w.release.patch := hrelease ▸ Int.natCast_nonneg patch
  rw [le_iff_not_lt, increment, lt_ofRelease_iff hw]
  exact Release.compare_increment_ne_lt_iff hminor hpatch

/-- The next series starts with a stable version above the one that is raised, prerelease or not, so
that the interval between the two is not empty.  And it is the least one: the stable versions that
are no lower are those with greater leading numbers, where a missing number counts as zero. -/
theorem increment_le_iff_of_parse (v : Version) (component : Component) :
    (v.increment component).isStable = true ∧ v < v.increment component ∧
    (Interval.upTo v (v.increment component)).isEmpty = false ∧
    ∀ shown w, parse shown = .ok w → w.prerelease = none →
      (v.increment component ≤ w ↔
        v.release.numbers.take component.count < w.release.numbers.take component.count) := by
  have hlt := v.lt_increment component
  refine ⟨rfl, hlt, Interval.isEmpty_upTo hlt, fun shown w hshown hw => ?_⟩
  exact increment_le_iff (isShown_of_parse hshown).isNatural hw

/-- A prerelease without a patch number, against a version that is one digit of another script. -/
theorem increment_le_iff_of_parse_digits :
    let v : Version := .ofComponents { major := 1, minor := some 9, prerelease := some "rc.1" }
    let w : Version := ⟨{ major := 2 }, "\u0662"⟩
    parse "\u0662" = .ok w ∧ w.prerelease = none ∧ v.increment .major ≤ w ∧ v.increment .minor ≤ w ∧
      v.increment .patch ≤ w ∧ ¬w.increment .major ≤ w := by
  intro v w
  have hshown : parse "\u0662" = .ok w := by decide +kernel
  have hle (u : Version) (component : Component) := (increment_le_iff_of_parse u component).2.2.2
  refine ⟨hshown, rfl, ?_, ?_, ?_, ?_⟩
  · exact (hle v .major "\u0662" w hshown rfl).mpr (by decide)
  · exact (hle v .minor "\u0662" w hshown rfl).mpr (by decide)
  · exact (hle v .patch "\u0662" w hshown rfl).mpr (by decide)
  · exact mt (hle w .major "\u0662" w hshown rfl).mp (by decide)

end Version

end Versioning
