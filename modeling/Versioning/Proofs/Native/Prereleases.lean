import Versioning.Proofs.Native.Compatible

/-! Prereleases in the series that operators stand for.  A series ends below the release with which
the next one starts, and the prereleases of a release lie below it: so they are held, too.  No other
prerelease of a later series is. -/

namespace Versioning

/-- Before the next series, only the number that it raises may differ, and only in prereleases of
its first release. -/
theorem Version.PrecedesNext.numbers {component : Component} {v w : Version}
    (h : v.PrecedesNext component w) :
    (v.major = w.major ∨ component = .major ∧ v.release = ⟨w.major + 1, 0, 0⟩) ∧
    (component ≠ .major → v.release.minor = w.release.minor ∨
      component = .minor ∧ v.release = ⟨w.major, w.release.minor + 1, 0⟩) := by
  have hv : v.release.major = v.major := rfl
  have hw : w.release.major = w.major := rfl
  rcases h with ⟨-, hagrees⟩ | hnext
  · rw [AgreesOn] at hagrees
    cases component <;> simp_all [Release.numbers, Component.count]
  · rw [← hv, ← hw, hnext]
    cases component <;> simp [Release.increment]

namespace Range

/-- The text is read, and the prereleases in its range are those that satisfy `P`. -/
def AdmitsPrereleases [Specifier.Reader] (text scheme : String) (P : Version → Prop) : Prop :=
  ∃ r, (parseNative text scheme).run = .ok r ∧
    ∀ shown v, Version.parse shown = .ok v → v.isPrerelease = true → (r.contains v = true ↔ P v)

variable {text scheme t : String} {component : Component} {w : Version}

theorem admitsPrereleases_of_run [Specifier.Reader]
    (hr : (grammarOf scheme text).run = .ok (unbounded.inter (series w component))) :
    AdmitsPrereleases text scheme (·.PrecedesNext component w) := by
  refine ⟨series w component, ?_, fun shown v hshown hv => ?_⟩
  · rw [run_parseNative_eq_ok_iff, hr, unbounded_inter_series]
  · exact contains_series_iff_of_isPrerelease (Version.isShown_of_parse hshown).isNatural hv

/-- Of the prereleases, an operator that stands for a series holds those that have the leading
numbers of its version and are no lower, and those of the release with which the next series
starts.  Of clauses this holds whatever lawful reader accepts them. -/
theorem admitsPrereleases_series [Specifier.Reader] (h : Version.parse t = .ok w) :
    ('|' ∉ t.toList →
      (0 < w.major → AdmitsPrereleases ("^" ++ t) "npm" (·.PrecedesNext .major w)) ∧
      AdmitsPrereleases ("~" ++ t) "npm"
        (·.PrecedesNext (if w.minor.isSome then .minor else .major) w)) ∧
    (',' ∉ t.toList → AdmitsPrereleases ("~> " ++ t) "gem"
      (·.PrecedesNext (if w.patch.isSome then .minor else .major) w)) ∧
    (Specifier.Reader.IsLawful →
      ((Specifier.Reader.ofClause? ("~=" ++ t).toList).isSome = true →
        AdmitsPrereleases ("~=" ++ t) "pypi"
          (·.PrecedesNext (if w.patch.isSome then .minor else .major) w)) ∧
      ((Specifier.Reader.ofClause? ("==" ++ t ++ ".*").toList).isSome = true →
        AdmitsPrereleases ("==" ++ t ++ ".*") "pypi" (·.PrecedesNext
          (if w.patch.isSome then .patch else if w.minor.isSome then .minor else .major) w))) ∧
    ∀ component (v : Version), v.PrecedesNext component w →
      (v.major = w.major ∨ component = .major ∧ v.release = ⟨w.major + 1, 0, 0⟩) ∧
      (component ≠ .major → v.release.minor = w.release.minor ∨
        component = .minor ∧ v.release = ⟨w.major, w.release.minor + 1, 0⟩) := by
  refine ⟨fun hbar => ⟨fun hmajor => ?caret, ?tilde⟩, fun hcomma => ?gem,
    fun hreader => ⟨fun haccepts => ?compatible, fun haccepts => ?wildcard⟩,
    fun _ _ => Version.PrecedesNext.numbers⟩
  case caret =>
    have hcaret : Npm.caret w = series w .major := by
      rw [Npm.caret, if_pos (show 0 < w.release.major from hmajor)]
    refine admitsPrereleases_of_run ?_
    rw [grammarOf_npm, Npm.run_parse_caret h hbar, hcaret, unbounded_inter_series]
  case tilde =>
    refine admitsPrereleases_of_run ?_
    rw [grammarOf_npm, Npm.run_parse_tilde h hbar, unbounded_inter_series, Npm.tilde]
  case gem =>
    refine admitsPrereleases_of_run ?_
    rw [grammarOf_gem, Gem.run_parse_pessimistic h hcomma, Gem.pessimistic]
  case compatible =>
    refine admitsPrereleases_of_run ?_
    rw [grammarOf_pypi, Pypi.run_parse_compatible hreader h haccepts, Pypi.compatible]
  case wildcard =>
    refine admitsPrereleases_of_run ?_
    rw [grammarOf_pypi, (Pypi.run_parse_wildcard hreader h haccepts).1, Pypi.prefixed]

/-- From `1.2.0-rc.1` on, a prerelease of `1.3.1` precedes the next major number, and one of `1.3.0`
the next minor number; one of `1.2.0` may lie below the start.  Behind three numbers a wildcard
stands for the patch number alone. -/
theorem admitsPrereleases_series_next :
    let w : Version :=
      .ofComponents { major := 1, minor := some 2, patch := some 0, prerelease := some "rc.1" }
    let v (minor patch : Nat) : Version := .ofComponents
      { major := 1, minor := some minor, patch := some patch, prerelease := some "a" }
    Version.parse "1.2.0-rc.1" = .ok w ∧ Version.parse "1.2.3" = .ok (.ofRelease ⟨1, 2, 3⟩) ∧
      (∃ r, (parseNative "^1.2.0-rc.1" "npm").run = .ok r ∧ r.contains (v 3 1) = true) ∧
      (∃ r, (parseNative "~1.2.0-rc.1" "npm").run = .ok r ∧ r.contains (v 3 0) = true ∧
        r.contains (v 3 1) = false) ∧
      (∃ r, (parseNative "~> 1.2.0-rc.1" "gem").run = .ok r ∧ r.contains (v 2 0) = false) ∧
      (∃ r, (parseNative "~=1.2.3" "pypi").run = .ok r ∧ r.contains (v 3 0) = true) ∧
      ∃ r, (parseNative "==1.2.3.*" "pypi").run = .ok r ∧ r.contains (v 2 4) = true ∧
        r.contains (v 3 0) = false := by
  intro w v
  have hw : Version.parse "1.2.0-rc.1" = .ok w := by decide +kernel
  have hw' : Version.parse "1.2.3" = .ok (.ofRelease ⟨1, 2, 3⟩) := by decide +kernel
  have hv : ∀ p ∈ [(2, 0), (2, 4), (3, 0), (3, 1)],
      Version.parse (v p.1 p.2).text = .ok (v p.1 p.2) := by decide +kernel
  obtain ⟨hnpm, hgem, -, -⟩ := admitsPrereleases_series hw
  obtain ⟨-, -, hclauses, -⟩ := admitsPrereleases_series hw'
  obtain ⟨hcompatible, hwildcard⟩ := hclauses Pep440.isLawful
  obtain ⟨hcaret, p, hp, htilde⟩ := hnpm (by decide +kernel)
  obtain ⟨q, hq, hcaret⟩ := hcaret (by decide +kernel)
  obtain ⟨r, hr, hgem⟩ := hgem (by decide +kernel)
  obtain ⟨s, hs, hcompatible⟩ := hcompatible (by decide +kernel)
  obtain ⟨u, hu, hwildcard⟩ := hwildcard (by decide +kernel)
  have hnot {r : Range} {v : Version} {P : Prop} (h : r.contains v = true ↔ P) (hP : ¬P) :
      r.contains v = false := Bool.eq_false_of_not_eq_true fun hc => hP (h.mp hc)
  refine ⟨hw, hw', ⟨q, hq, ?_⟩, ⟨p, hp, ?_, ?_⟩, ⟨r, hr, ?_⟩, ⟨s, hs, ?_⟩, u, hu, ?_, ?_⟩
  · exact (hcaret _ _ (hv (3, 1) (by decide)) rfl).mpr (by decide +kernel)
  · exact (htilde _ _ (hv (3, 0) (by decide)) rfl).mpr (by decide +kernel)
  · exact hnot (htilde _ _ (hv (3, 1) (by decide)) rfl) (by decide +kernel)
  · exact hnot (hgem _ _ (hv (2, 0) (by decide)) rfl) (by decide +kernel)
  · exact (hcompatible _ _ (hv (3, 0) (by decide)) rfl).mpr (by decide +kernel)
  · exact (hwildcard _ _ (hv (2, 4) (by decide)) rfl).mpr (by decide +kernel)
  · exact hnot (hwildcard _ _ (hv (3, 0) (by decide)) rfl) (by decide +kernel)

/-- A series of `1.2.3` by its major number holds a prerelease of `2.0.0`, and one by its minor
number a prerelease of `1.3.0`. -/
theorem exists_prerelease_of_next_series :
    let v (major minor : Nat) : Version := .ofComponents
      { major, minor := some minor, patch := some 0, prerelease := some "alpha" }
    let holds (text scheme : String) (v : Version) : Option Bool :=
      ((parseNative text scheme).run.map (·.contains v)).toOption
    (Version.parse "2.0.0-alpha" = .ok (v 2 0) ∧
      holds "^1.2.3" "npm" (v 2 0) = some true ∧ holds "~> 1.2" "gem" (v 2 0) = some true ∧
      holds "~=1.2" "pypi" (v 2 0) = some true ∧ holds "==1.*" "pypi" (v 2 0) = some true) ∧
    Version.parse "1.3.0-alpha" = .ok (v 1 3) ∧
      holds "~1.2.3" "npm" (v 1 3) = some true ∧ holds "~> 1.2.3" "gem" (v 1 3) = some true ∧
      holds "==1.2.*" "pypi" (v 1 3) = some true := by
  decide +kernel

end Range

end Versioning
